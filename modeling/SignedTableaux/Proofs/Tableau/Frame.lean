import SignedTableaux.Proofs.Tableau.Order

/-!
# Nodes that stay as they are

What a change does to the nodes of a tableau, one by one. Where a goal is replaced, all other nodes
stay as they are, but that its parent gets the topmost nodes of what takes its place as children.
Where goals are closed, just these goals change, and they change in nothing but the substitution
that they keep.

## Main definitions

* `Node.adopt` — a node where others take the place of one child
* `Node.stamp` — a goal closed by a substitution

## Main results

* `Tableau.adopt_mem_nodes_graft`, `Tableau.of_mem_nodes_graft` — the nodes after grafting
* `Tableau.nodes_closeBelow` — all nodes after closing
-/

namespace SignedTableaux

namespace Node

/-- The node where `tops` take the place of the child `c`, if it has that child. -/
def adopt (c : NodeId) (tops : List NodeId) (n : Node) : Node :=
  { n with children := n.children.flatMap fun d => if d = c then tops else [d] }

/-- The node as a goal that is closed by `σ`. -/
def stamp (σ : Substitution) (n : Node) : Node :=
  { n with content := .goal (some σ) }

variable {n : Node} {c : NodeId} {tops : List NodeId}

theorem flatMap_replace_of_not_mem {l : List NodeId} (h : c ∉ l) :
    (l.flatMap fun d => if d = c then tops else [d]) = l := by
  rw [List.flatMap_congr (g := fun d => [d]) fun d hd => if_neg (ne_of_mem_of_not_mem hd h)]
  exact List.flatMap_singleton' l

theorem adopt_of_not_mem (h : c ∉ n.children) : n.adopt c tops = n := by
  rw [adopt, flatMap_replace_of_not_mem h]

theorem adopt_singleton : n.adopt c [c] = n := by
  have hchildren : (n.children.flatMap fun d => if d = c then [c] else [d]) = n.children := by
    rw [List.flatMap_congr (g := fun d => [d]) fun d _ => by split <;> simp [*]]
    exact List.flatMap_singleton' n.children
  rw [adopt, hchildren]

theorem inPlace_adopt (tops : List NodeId) (hnodup : n.children.Nodup) (h : c ∈ n.children) :
    InPlace c tops n.children (n.adopt c tops).children := by
  obtain ⟨before, after, hchildren⟩ := List.append_of_mem h
  rw [hchildren] at hnodup
  obtain ⟨-, hafter, hdisjoint⟩ := List.nodup_append'.mp hnodup
  have hb : c ∉ before := fun hc => hdisjoint hc List.mem_cons_self
  have ha : c ∉ after := (List.nodup_cons.mp hafter).1
  refine ⟨before, after, hchildren, ?_, hb, ha⟩
  rw [adopt, hchildren, List.flatMap_append, List.flatMap_cons, flatMap_replace_of_not_mem hb,
    flatMap_replace_of_not_mem ha, if_pos rfl, List.append_assoc]

theorem reopen_content_injective : Function.Injective fun n : Node => (n.reopen, n.content) := by
  intro n m h
  obtain ⟨hreopen, hcontent⟩ := Prod.mk.inj h
  obtain ⟨hid, hparent, hposition, hchildren⟩ := eq_of_reopen_eq hreopen
  cases n
  cases m
  simp_all

end Node

namespace Tableau

variable {t : Tableau} {n : Node} {g : NodeId} {parent : Option NodeId} {position : Nat}

/-! ### Growth -/

theorem tops_graft (sub : Tableau) (h : ∀ e ∈ t.entries, e.id ≠ g) :
    (t.graft g sub).tops = t.tops.flatMap fun c => if c = g then sub.tops else [c] := by
  induction t with
  | goal id closing => by_cases hid : id = g <;> simp [graft, tops, hid]
  | step e rest => simp [graft, tops, h e List.mem_cons_self]
  | fork left right ihl ihr =>
    rw [graft, tops, tops, List.flatMap_append, ihl fun e he => h e (List.mem_append_left _ he),
      ihr fun e he => h e (List.mem_append_right _ he)]

/-- Every node but the goal itself is still there, and has the goal replaced among its children. -/
theorem adopt_mem_nodesFrom_graft (sub : Tableau) (hshaped : t.Shaped)
    (hentries : ∀ e ∈ t.entries, e.id ≠ g) (hn : n ∈ t.nodesFrom parent position) (hne : n.id ≠ g) :
    n.adopt g sub.tops ∈ (t.graft g sub).nodesFrom parent position := by
  induction t generalizing parent position with
  | goal id closing =>
    obtain rfl := List.mem_singleton.mp hn
    rw [graft, if_neg hne]
    exact List.mem_singleton.mpr rfl
  | step e rest ih =>
    have hrest : ∀ e' ∈ rest.entries, e'.id ≠ g :=
      fun e' he' => hentries e' (List.mem_cons_of_mem _ he')
    rcases List.mem_cons.mp hn with rfl | hn
    · rw [graft, nodesFrom, tops_graft sub hrest]
      exact List.mem_cons_self
    · exact List.mem_cons_of_mem _ (ih hshaped hrest hn)
  | fork left right ihl ihr =>
    obtain ⟨hl, hr, hleft, -⟩ := hshaped
    rcases List.mem_append.mp hn with hn | hn
    · exact List.mem_append_left _ (ihl hl (fun e he => hentries e (List.mem_append_left _ he)) hn)
    · -- the left side starts with an entry and goes on doing so, so the right side is not moved
      have htops : (left.graft g sub).tops = left.tops := by
        obtain ⟨e, rest, rfl⟩ := exists_step_of_rootEntry hleft
        rfl
      refine List.mem_append_right _ ?_
      rw [htops]
      exact ihr hr (fun e he => hentries e (List.mem_append_right _ he)) hn

theorem adopt_mem_nodes_graft (sub : Tableau) (h : t.WellFormed) (hg : g ∈ t.goals)
    (hn : n ∈ t.nodes) (hne : n.id ≠ g) : n.adopt g sub.tops ∈ (t.graft g sub).nodes :=
  adopt_mem_nodesFrom_graft sub h.shaped (fun _ => id_ne_of_mem_entries h.numbered.nodup hg) hn hne

/-- The nodes of what takes the place of a goal get its parent and its position. -/
theorem mem_nodesFrom_graft_of_goal {sub : Tableau} {closing : Option Substitution}
    {k : Option NodeId} {i : Nat} (hshaped : t.Shaped)
    (hg : ⟨g, .goal closing, k, i, []⟩ ∈ t.nodesFrom parent position)
    (hn : n ∈ sub.nodesFrom k i) : n ∈ (t.graft g sub).nodesFrom parent position := by
  induction t generalizing parent position with
  | goal id closing' =>
    obtain ⟨rfl, -, rfl, rfl, -⟩ := Node.mk.inj (List.mem_singleton.mp hg)
    rwa [graft, if_pos rfl]
  | step e rest ih =>
    have hg : ⟨g, .goal closing, k, i, []⟩ ∈ rest.nodesFrom (some e.id) 0 := by
      simpa [nodesFrom] using hg
    exact List.mem_cons_of_mem _ (ih hshaped hg)
  | fork left right ihl ihr =>
    obtain ⟨hl, hr, hleft, -⟩ := hshaped
    rcases List.mem_append.mp hg with hg | hg
    · exact List.mem_append_left _ (ihl hl hg)
    · obtain ⟨e, rest, rfl⟩ := exists_step_of_rootEntry hleft
      exact List.mem_append_right _ (ihr hr hg)

/-- A node after grafting is one of what was grafted, or it was there before. -/
theorem of_mem_nodes_graft {sub : Tableau} {closing : Option Substitution} {k : Option NodeId}
    {i : Nat} (h : t.WellFormed) (hgraft : (t.graft g sub).ids.Nodup)
    (hg : ⟨g, .goal closing, k, i, []⟩ ∈ t.nodes) (hsub : g ∈ sub.ids)
    (hn : n ∈ (t.graft g sub).nodes) :
    n ∈ sub.nodesFrom k i ∨ ∃ m ∈ t.nodes, m.id ≠ g ∧ n = m.adopt g sub.tops := by
  have hgoal : g ∈ t.goals := WellFormed.mem_goals_of_isGoal hg rfl
  have hid : n.id ∈ t.ids ++ sub.ids :=
    (cons_ids_graft_perm h.numbered.nodup hgoal).subset
      (List.mem_cons_of_mem _ (mem_ids_of_mem_nodesFrom hn))
  by_cases hnew : n.id ∈ sub.ids
  · rw [← sub.map_id_nodesFrom k i] at hnew
    obtain ⟨m, hm, heq⟩ := List.mem_map.mp hnew
    obtain rfl := node_eq_of_id_eq hgraft (mem_nodesFrom_graft_of_goal h.shaped hg hm) hn heq
    exact .inl hm
  · obtain ⟨m, hm, heq⟩ := exists_node ((List.mem_append.mp hid).resolve_right hnew)
    have hne : m.id ≠ g := fun hmg => hnew (by rwa [← heq, hmg])
    have hadopt := adopt_mem_nodes_graft sub h hgoal hm hne
    exact .inr ⟨m, hm, hne, node_eq_of_id_eq hgraft hn hadopt heq.symm⟩

/-! ### Closing -/

/-- Nodes and spots hold the same. -/
theorem map_content_nodes {α : Type} (f : NodeId → Content → α) (t : Tableau) :
    t.nodes.map (fun n => f n.id n.content) = t.spots.map fun p => f p.id p.content := by
  have h := congrArg (List.map fun x : NodeId × Content × Option NodeId => f x.1 x.2.1) t.map_nodes
  simpa [Function.comp_def] using h

theorem mem_openGoalsBelow_iff {id : NodeId} {p : Spot} (hnodup : t.ids.Nodup) (hp : p ∈ t.spots) :
    p.id ∈ t.openGoalsBelow id ↔ p.content = .goal none ∧ p.below id := by
  refine ⟨fun h => ?_, fun ⟨hopen, hbelow⟩ => mem_openGoalsBelow hnodup hp hopen hbelow⟩
  obtain ⟨q, hq, hopen, hbelow, hid⟩ := exists_spot_of_mem_openGoalsBelow h
  obtain rfl := spot_eq_of_id_eq hnodup hq hp hid
  exact ⟨hopen, hbelow⟩

theorem reopen_stamp {id : NodeId} {σ : Substitution} (hnodup : t.ids.Nodup) (hn : n ∈ t.nodes)
    (h : n.id ∈ t.openGoalsBelow id) : (n.stamp σ).reopen = n.reopen := by
  obtain ⟨p, hp, hid, hcontent, -⟩ := exists_spot_of_mem_nodes hn
  rw [← hid, mem_openGoalsBelow_iff hnodup hp, hcontent] at h
  simp [Node.stamp, Node.reopen, h.1]

/-- Closing changes just the open goals at and below the node, and these only in what they hold. -/
theorem nodes_closeBelow (hnodup : t.ids.Nodup) (id : NodeId) (σ : Substitution) :
    (t.closeBelow id σ).nodes =
      t.nodes.map fun n => if n.id ∈ t.openGoalsBelow id then n.stamp σ else n := by
  -- with all goals open the nodes are the same, and they hold what the spots hold
  have hframe : (t.closeBelow id σ).nodes.map Node.reopen =
      t.nodes.map fun n => (if n.id ∈ t.openGoalsBelow id then n.stamp σ else n).reopen := by
    rw [nodes, ← nodesFrom_reopen, reopen_closeBelow, nodesFrom_reopen]
    refine List.map_congr_left fun n hn => ?_
    split
    · next hmem => exact (reopen_stamp hnodup hn hmem).symm
    · rfl
  have hcontent : (t.closeBelow id σ).nodes.map Node.content =
      t.nodes.map fun n => (if n.id ∈ t.openGoalsBelow id then n.stamp σ else n).content := by
    simp only [apply_ite Node.content, Node.stamp]
    rw [map_content_nodes (fun i c => if i ∈ t.openGoalsBelow id then .goal (some σ) else c),
      map_content_nodes (fun _ c => c), spots_closeBelow, List.map_map]
    refine List.map_congr_left fun p hp => ?_
    rw [Function.comp_apply, Spot.closeBelow_content]
    simp only [mem_openGoalsBelow_iff hnodup hp]
  refine List.map_injective_iff.mpr Node.reopen_content_injective ?_
  rw [List.map_map, ← List.zip_map', hframe, hcontent, List.zip_map']
  rfl

end Tableau

end SignedTableaux
