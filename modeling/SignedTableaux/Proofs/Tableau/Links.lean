import SignedTableaux.Proofs.Tableau.Numbering

/-!
# Links between nodes

Every node is listed as a child by its parent, at its position, and by no other node. In a tableau
where both sides of every fork start with an entry a node has at most two children, and a goal has
no sibling.

## Main definitions

* `Tableau.IsChild` — whether a node has another one as its parent
* `Tableau.Shaped` — both sides of every fork start with an entry
* `Tableau.WellFormed` — well numbered, with an entry at the root, and shaped

## Main results

* `Tableau.tops_append_children_perm` — the child lists hold every node below the top once
* `Tableau.mem_children_iff` — child lists and parents say the same
* `Tableau.WellFormed.goal_alone` — a goal has no sibling
* `Tableau.WellFormed.exists_goal_node` — a goal is the only child of its parent, below which the
  tableau can fork
-/

namespace SignedTableaux.Tableau

variable {t : Tableau} {parent : Option NodeId} {position : Nat} {n m : Node}

/-! ### Child lists -/

theorem tops_ne_nil (t : Tableau) : t.tops ≠ [] := by
  induction t with
  | goal id closing => simp [tops]
  | step e rest => simp [tops]
  | fork left right ihl ihr => simp [tops, ihl]

/-- The topmost nodes have the given parent and stand in a row from the given position on. -/
theorem exists_node_of_mem_tops (parent : Option NodeId) {c i : Nat}
    (h : (c, i) ∈ t.tops.zipIdx position) :
    ∃ n ∈ t.nodesFrom parent position, n.id = c ∧ n.parent = parent ∧ n.position = i := by
  induction t generalizing position with
  | goal id closing =>
    obtain ⟨rfl, rfl⟩ : c = id ∧ i = position := by simpa [tops] using h
    exact ⟨_, List.mem_singleton.mpr rfl, rfl, rfl, rfl⟩
  | step e rest ih =>
    obtain ⟨rfl, rfl⟩ : c = e.id ∧ i = position := by simpa [tops] using h
    exact ⟨_, List.mem_cons_self, rfl, rfl, rfl⟩
  | fork left right ihl ihr =>
    rw [tops, List.zipIdx_append, List.mem_append] at h
    rcases h with h | h
    · obtain ⟨n, hn, hlinks⟩ := ihl h
      exact ⟨n, List.mem_append_left _ hn, hlinks⟩
    · obtain ⟨n, hn, hlinks⟩ := ihr h
      exact ⟨n, List.mem_append_right _ hn, hlinks⟩

/-- The children of a node have it as their parent and stand in a row. -/
theorem exists_node_of_mem_children {c i : Nat} (hn : n ∈ t.nodesFrom parent position)
    (h : (c, i) ∈ n.children.zipIdx) :
    ∃ m ∈ t.nodesFrom parent position, m.id = c ∧ m.parent = some n.id ∧ m.position = i := by
  induction t generalizing parent position with
  | goal id closing =>
    obtain rfl := List.mem_singleton.mp hn
    exact absurd h List.not_mem_nil
  | step e rest ih =>
    rcases List.mem_cons.mp hn with rfl | hn
    · obtain ⟨m, hm, hlinks⟩ := exists_node_of_mem_tops (t := rest) (some e.id) h
      exact ⟨m, List.mem_cons_of_mem _ hm, hlinks⟩
    · obtain ⟨m, hm, hlinks⟩ := ih hn
      exact ⟨m, List.mem_cons_of_mem _ hm, hlinks⟩
  | fork left right ihl ihr =>
    rcases List.mem_append.mp hn with hn | hn
    · obtain ⟨m, hm, hlinks⟩ := ihl hn
      exact ⟨m, List.mem_append_left _ hm, hlinks⟩
    · obtain ⟨m, hm, hlinks⟩ := ihr hn
      exact ⟨m, List.mem_append_right _ hm, hlinks⟩

/-- The leaves are the goals. -/
theorem isGoal_eq_isEmpty_children (hn : n ∈ t.nodesFrom parent position) :
    n.isGoal = n.children.isEmpty := by
  induction t generalizing parent position with
  | goal id closing =>
    obtain rfl := List.mem_singleton.mp hn
    rfl
  | step e rest ih =>
    rcases List.mem_cons.mp hn with rfl | hn
    · simpa [Node.isGoal, Node.asEntry] using (List.isEmpty_eq_false_iff.mpr rest.tops_ne_nil).symm
    · exact ih hn
  | fork left right ihl ihr => exact (List.mem_append.mp hn).elim ihl ihr

/-- The topmost nodes and the child lists together hold every node once. -/
theorem tops_append_children_perm (t : Tableau) (parent : Option NodeId) (position : Nat) :
    (t.tops ++ (t.nodesFrom parent position).flatMap Node.children).Perm t.ids := by
  induction t generalizing parent position with
  | goal id closing => exact List.Perm.refl _
  | step e rest ih => exact (ih (some e.id) 0).cons e.id
  | fork left right ihl ihr =>
    have hl := ihl parent position
    have hr := ihr parent (position + left.tops.length)
    rw [tops, nodesFrom, List.flatMap_append, ids, List.append_assoc]
    -- move the topmost nodes on the right past the child lists on the left
    refine List.Perm.trans ?_ (hl.append hr)
    rw [List.append_assoc left.tops]
    refine List.Perm.append_left _ ?_
    rw [← List.append_assoc, ← List.append_assoc]
    exact List.perm_append_comm.append_right _

theorem children_subset_ids {c : NodeId} (hn : n ∈ t.nodesFrom parent position)
    (h : c ∈ n.children) : c ∈ t.ids := by
  refine (t.tops_append_children_perm parent position).subset (List.mem_append_right _ ?_)
  exact List.mem_flatMap.mpr ⟨n, hn, h⟩

theorem nodup_children (hnodup : t.ids.Nodup) (hn : n ∈ t.nodesFrom parent position) :
    n.children.Nodup := by
  have hall := (t.tops_append_children_perm parent position).nodup_iff.mpr hnodup
  exact (List.nodup_flatMap.mp hall.of_append_right).1 n hn

/-! ### Parents -/

theorem map_id_nodesFrom (t : Tableau) (parent : Option NodeId) (position : Nat) :
    (t.nodesFrom parent position).map Node.id = t.ids := by
  induction t generalizing parent position with
  | goal id closing => rfl
  | step e rest ih => exact congrArg (e.id :: ·) (ih (some e.id) 0)
  | fork left right ihl ihr => rw [nodesFrom, List.map_append, ihl, ihr, ids]

theorem map_id_nodes (t : Tableau) : t.nodes.map Node.id = t.ids :=
  t.map_id_nodesFrom none 0

theorem mem_ids_of_mem_nodesFrom (hn : n ∈ t.nodesFrom parent position) : n.id ∈ t.ids :=
  t.map_id_nodesFrom parent position ▸ List.mem_map_of_mem hn

theorem node_eq_of_id_eq (hnodup : t.ids.Nodup) (hn : n ∈ t.nodes) (hm : m ∈ t.nodes)
    (h : n.id = m.id) : n = m := by
  rw [← map_id_nodes] at hnodup
  exact List.inj_on_of_nodup_map hnodup hn hm h

theorem node?_eq_some (hnodup : t.ids.Nodup) (hn : n ∈ t.nodes) : t.node? n.id = some n :=
  find?_eq_some_of_nodup (t.map_id_nodes.symm ▸ hnodup) hn

theorem exists_node {id : NodeId} (h : id ∈ t.ids) : ∃ n ∈ t.nodes, n.id = id := by
  rw [← map_id_nodes] at h
  exact List.mem_map.mp h

/-- Whether the node `k` is the parent of the node `c`. -/
def IsChild (t : Tableau) (c k : NodeId) : Prop :=
  ∃ n ∈ t.nodes, n.id = c ∧ n.parent = some k

theorem IsChild.parent_eq {c k k' : NodeId} (hnodup : t.ids.Nodup) (h : t.IsChild c k)
    (h' : t.IsChild c k') : k = k' := by
  obtain ⟨n, hn, rfl, hk⟩ := h
  obtain ⟨m, hm, hid, hk'⟩ := h'
  rw [node_eq_of_id_eq hnodup hm hn hid, hk] at hk'
  exact Option.some.inj hk'

theorem isChild_of_mem_children {c : NodeId} (hn : n ∈ t.nodes) (h : c ∈ n.children) :
    t.IsChild c n.id := by
  obtain ⟨i, hi, rfl⟩ := List.getElem_of_mem h
  have hmem : (n.children[i], i) ∈ n.children.zipIdx := by
    simp [List.mem_zipIdx_iff_getElem?, hi]
  obtain ⟨m, hm, hid, hparent, -⟩ := exists_node_of_mem_children hn hmem
  exact ⟨m, hm, hid, hparent⟩

theorem parent_eq_none_of_mem_tops (hnodup : t.ids.Nodup) (hn : n ∈ t.nodes) (h : n.id ∈ t.tops) :
    n.parent = none := by
  obtain ⟨i, hi, hid⟩ := List.getElem_of_mem h
  have hmem : (n.id, i) ∈ t.tops.zipIdx := by
    simp [List.mem_zipIdx_iff_getElem?, ← hid, hi]
  obtain ⟨m, hm, hm', hparent, -⟩ := exists_node_of_mem_tops none hmem
  rwa [← node_eq_of_id_eq hnodup hm hn hm']

theorem mem_tops_or_mem_children (hn : n ∈ t.nodes) :
    n.id ∈ t.tops ∨ ∃ m ∈ t.nodes, n.id ∈ m.children := by
  have hid : n.id ∈ t.ids := mem_ids_of_mem_nodesFrom hn
  rw [← (t.tops_append_children_perm none 0).mem_iff, List.mem_append, List.mem_flatMap] at hid
  exact hid

/-- The nodes in a child list are those that have the node as their parent. -/
theorem mem_children_iff {c : NodeId} (hnodup : t.ids.Nodup) (hn : n ∈ t.nodes) :
    c ∈ n.children ↔ t.IsChild c n.id := by
  refine ⟨isChild_of_mem_children hn, fun hchild => ?_⟩
  obtain ⟨m, hm, rfl, hparent⟩ := hchild
  -- the node is in some child list, and its parent tells in which
  rcases mem_tops_or_mem_children hm with htop | ⟨k, hk, hmem⟩
  · rw [parent_eq_none_of_mem_tops hnodup hm htop] at hparent
    exact absurd hparent.symm (Option.some_ne_none _)
  · have hid := (isChild_of_mem_children hk hmem).parent_eq hnodup ⟨m, hm, rfl, hparent⟩
    rwa [← node_eq_of_id_eq hnodup hk hn hid]

/-! ### Shape -/

/-- Both sides of every fork start with an entry. -/
def Shaped : Tableau → Prop
  | .goal .. => True
  | .step _ rest => rest.Shaped
  | .fork left right =>
    left.Shaped ∧ right.Shaped ∧ left.rootEntry.isSome ∧ right.rootEntry.isSome

theorem exists_step_of_rootEntry (h : t.rootEntry.isSome) : ∃ e rest, t = .step e rest := by
  cases t with
  | goal id closing => simp [rootEntry] at h
  | step e rest => exact ⟨e, rest, rfl⟩
  | fork left right => simp [rootEntry] at h

theorem rootEntry_graft {g : NodeId} {sub : Tableau} (h : t.rootEntry.isSome) :
    (t.graft g sub).rootEntry = t.rootEntry := by
  obtain ⟨e, rest, rfl⟩ := exists_step_of_rootEntry h
  rfl

@[simp] theorem rootEntry_close (σ : Substitution) (t : Tableau) :
    (t.close σ).rootEntry = t.rootEntry := by
  cases t with
  | goal id closing => cases closing <;> rfl
  | step e rest => rfl
  | fork left right => rfl

@[simp] theorem rootEntry_closeBelow (id : NodeId) (σ : Substitution) (t : Tableau) :
    (t.closeBelow id σ).rootEntry = t.rootEntry := by
  cases t with
  | goal id' closing =>
    rw [closeBelow]
    split
    · exact rootEntry_close σ _
    · rfl
  | step e rest =>
    rw [closeBelow]
    split <;> rfl
  | fork left right => rfl

theorem Shaped.graft {g : NodeId} {sub : Tableau} (h : t.Shaped) (hsub : sub.Shaped) :
    (t.graft g sub).Shaped := by
  induction t with
  | goal id closing =>
    rw [Tableau.graft]
    split
    · exact hsub
    · exact h
  | step e rest ih => exact ih h
  | fork left right ihl ihr =>
    obtain ⟨hl, hr, hleft, hright⟩ := h
    refine ⟨ihl hl, ihr hr, ?_, ?_⟩
    · rwa [rootEntry_graft hleft]
    · rwa [rootEntry_graft hright]

theorem shaped_stack (origin : Origin) (next : NodeId) (fragments : List Fragment) :
    (stack origin next fragments).Shaped := by
  induction fragments generalizing next with
  | nil => trivial
  | cons fragment others ih => exact ih (next + 1)

theorem shaped_ofExpansion (g next : NodeId) (origin : Origin) (expansion : Expansion) :
    (ofExpansion g next origin expansion).Shaped := by
  cases expansion with
  | linear first others => exact shaped_stack origin next others
  | branching left right => exact ⟨trivial, trivial, rfl, rfl⟩

theorem Shaped.close {σ : Substitution} (h : t.Shaped) : (t.close σ).Shaped := by
  induction t with
  | goal id closing => cases closing <;> trivial
  | step e rest ih => exact ih h
  | fork left right ihl ihr =>
    obtain ⟨hl, hr, hleft, hright⟩ := h
    exact ⟨ihl hl, ihr hr, by rwa [rootEntry_close], by rwa [rootEntry_close]⟩

theorem Shaped.closeBelow {id : NodeId} {σ : Substitution} (h : t.Shaped) :
    (t.closeBelow id σ).Shaped := by
  induction t with
  | goal id' closing =>
    rw [Tableau.closeBelow]
    split
    · exact h.close
    · exact h
  | step e rest ih =>
    rw [Tableau.closeBelow]
    split
    · exact Shaped.close (t := rest) h
    · exact ih h
  | fork left right ihl ihr =>
    obtain ⟨hl, hr, hleft, hright⟩ := h
    exact ⟨ihl hl, ihr hr, by rwa [rootEntry_closeBelow], by rwa [rootEntry_closeBelow]⟩

theorem Shaped.length_tops_le (h : t.Shaped) : t.tops.length ≤ 2 := by
  cases t with
  | goal id closing => simp [tops]
  | step e rest => simp [tops]
  | fork left right =>
    obtain ⟨-, -, hleft, hright⟩ := h
    obtain ⟨e, rest, rfl⟩ := exists_step_of_rootEntry hleft
    obtain ⟨e', rest', rfl⟩ := exists_step_of_rootEntry hright
    simp [tops]

theorem Shaped.length_children_le (h : t.Shaped) (hn : n ∈ t.nodesFrom parent position) :
    n.children.length ≤ 2 := by
  induction t generalizing parent position with
  | goal id closing =>
    obtain rfl := List.mem_singleton.mp hn
    exact Nat.zero_le 2
  | step e rest ih =>
    rcases List.mem_cons.mp hn with rfl | hn
    · exact length_tops_le (t := rest) h
    · exact ih h hn
  | fork left right ihl ihr => exact (List.mem_append.mp hn).elim (ihl h.1) (ihr h.2.1)

theorem Shaped.tops_eq_singleton {c : NodeId} (h : t.Shaped) (hnodup : t.ids.Nodup)
    (hc : c ∈ t.tops) (hgoal : c ∈ t.goals) : t.tops = [c] := by
  cases t with
  | goal id closing => rw [tops, List.mem_singleton.mp hc]
  | step e rest => rw [tops, List.mem_singleton.mp hc]
  | fork left right =>
    obtain ⟨-, -, hleft, hright⟩ := h
    obtain ⟨e, rest, rfl⟩ := exists_step_of_rootEntry hleft
    obtain ⟨e', rest', rfl⟩ := exists_step_of_rootEntry hright
    obtain ⟨hl, hr, hdisjoint⟩ := List.nodup_append'.mp hnodup
    have hrest := (List.nodup_cons.mp hl).1
    have hrest' := (List.nodup_cons.mp hr).1
    rcases List.mem_append.mp hgoal with hg | hg <;> rcases List.mem_append.mp hc with hc | hc <;>
      obtain rfl := List.mem_singleton.mp hc
    · exact absurd (goals_subset_ids (t := rest) hg) hrest
    · exact absurd List.mem_cons_self
        (hdisjoint (goals_subset_ids (t := .step e rest) hg))
    · exact absurd (goals_subset_ids (t := .step e' rest') hg)
        (hdisjoint List.mem_cons_self)
    · exact absurd (goals_subset_ids (t := rest') hg) hrest'

/-- A goal has no sibling. -/
theorem Shaped.children_eq_singleton {c : NodeId} (h : t.Shaped) (hnodup : t.ids.Nodup)
    (hn : n ∈ t.nodesFrom parent position) (hc : c ∈ n.children) (hgoal : c ∈ t.goals) :
    n.children = [c] := by
  induction t generalizing parent position with
  | goal id closing =>
    obtain rfl := List.mem_singleton.mp hn
    exact absurd hc List.not_mem_nil
  | step e rest ih =>
    have hrest := (List.nodup_cons.mp hnodup).2
    rcases List.mem_cons.mp hn with rfl | hn
    · exact tops_eq_singleton (t := rest) h hrest hc hgoal
    · exact ih h hrest hn hgoal
  | fork left right ihl ihr =>
    obtain ⟨hl, hr, hdisjoint⟩ := List.nodup_append'.mp hnodup
    rcases List.mem_append.mp hn with hn | hn
    · have hnot : c ∉ right.goals := fun hg =>
        hdisjoint (children_subset_ids hn hc) (goals_subset_ids hg)
      exact ihl h.1 hl hn ((List.mem_append.mp hgoal).resolve_right hnot)
    · have hnot : c ∉ left.goals := fun hg =>
        hdisjoint (goals_subset_ids hg) (children_subset_ids hn hc)
      exact ihr h.2.1 hr hn ((List.mem_append.mp hgoal).resolve_left hnot)

/-! ### Well-formed tableaux -/

/-- Well numbered, with an entry at the root, and shaped. -/
structure WellFormed (t : Tableau) : Prop where
  numbered : t.WellNumbered
  rooted : t.rootEntry.isSome
  shaped : t.Shaped

namespace WellFormed

theorem start (signed : Signed) : (Tableau.start signed).WellFormed :=
  ⟨.start signed, rfl, trivial⟩

theorem expand {g : NodeId} {origin : Origin} {expansion : Expansion} (h : t.WellFormed)
    (hg : g ∈ t.goals) : (t.expand g origin expansion).1.WellFormed where
  numbered := h.numbered.expand hg
  rooted := by
    rw [Tableau.expand, rootEntry_graft h.rooted]
    exact h.rooted
  shaped := h.shaped.graft (shaped_ofExpansion ..)

theorem closeBelow {id : NodeId} {σ : Substitution} (h : t.WellFormed) :
    (t.closeBelow id σ).WellFormed where
  numbered := h.numbered.closeBelow
  rooted := by
    rw [rootEntry_closeBelow]
    exact h.rooted
  shaped := h.shaped.closeBelow

theorem tops_eq (h : t.WellFormed) : t.tops = [t.root] := by
  obtain ⟨e, rest, rfl⟩ := exists_step_of_rootEntry h.rooted
  rfl

theorem exists_root_node (h : t.WellFormed) : ∃ n ∈ t.nodes, n.id = t.root := by
  obtain ⟨e, rest, rfl⟩ := exists_step_of_rootEntry h.rooted
  exact ⟨_, List.mem_cons_self, rfl⟩

theorem parent_eq_none_iff (h : t.WellFormed) (hn : n ∈ t.nodes) :
    n.parent = none ↔ n.id = t.root := by
  rw [← List.mem_singleton (b := t.root), ← h.tops_eq]
  refine ⟨fun hparent => (mem_tops_or_mem_children hn).resolve_right ?_,
    parent_eq_none_of_mem_tops h.numbered.nodup hn⟩
  rintro ⟨m, hm, hchild⟩
  obtain ⟨n', hn', hid, hparent'⟩ := isChild_of_mem_children hm hchild
  rw [node_eq_of_id_eq h.numbered.nodup hn' hn hid, hparent] at hparent'
  exact absurd hparent'.symm (Option.some_ne_none _)

theorem parent_lt {k : NodeId} (h : t.WellFormed) (hn : n ∈ t.nodes) (hk : n.parent = some k) :
    k < n.id := by
  obtain ⟨p, hp, hid, -, hparent⟩ := exists_spot_of_mem_nodes hn
  rw [hk, Option.map_eq_some_iff] at hparent
  obtain ⟨e, he, rfl⟩ := hparent
  rw [← hid]
  exact h.numbered.ordered p hp e (List.mem_of_head? he)

theorem mem_goals_of_isGoal (hn : n ∈ t.nodes) (hgoal : n.isGoal) : n.id ∈ t.goals := by
  obtain ⟨p, hp, hid, hcontent, -⟩ := exists_spot_of_mem_nodes hn
  refine (mem_goals_iff []).mpr ⟨p, hp, ?_, hid⟩
  cases hn' : n.content with
  | entry e => simp [Node.isGoal, Node.asEntry, hn'] at hgoal
  | goal closing => exact ⟨closing, hcontent.trans hn'⟩

/-- A goal has no sibling. -/
theorem goal_alone (h : t.WellFormed) (hn : n ∈ t.nodes) (hm : m ∈ t.nodes) (hgoal : m.isGoal)
    (hchild : m.id ∈ n.children) : n.children = [m.id] :=
  h.shaped.children_eq_singleton h.numbered.nodup hn hchild (mem_goals_of_isGoal hm hgoal)

/-- Every goal has a parent. -/
theorem parent_isSome (h : t.WellFormed) (hn : n ∈ t.nodes) (hgoal : n.isGoal) :
    n.parent.isSome := by
  obtain ⟨p, hp, -, hcontent, hparent⟩ := exists_spot_of_mem_nodes hn
  obtain ⟨e, rest, rfl⟩ := exists_step_of_rootEntry h.rooted
  rcases List.mem_cons.mp hp with rfl | hp
  · simp [Node.isGoal, Node.asEntry, ← hcontent] at hgoal
  · have hne : p.above ≠ [] := List.ne_nil_of_mem ((suffix_above hp).subset List.mem_cons_self)
    simpa [← hparent] using hne

/-- A goal is a leaf, and the first and only child of its parent. -/
theorem exists_goal_node {g : NodeId} {closing : Option Substitution} {above : List Entry}
    (h : t.WellFormed) (hg : ⟨g, .goal closing, above⟩ ∈ t.spots) :
    ∃ m ∈ t.nodes, m.children = [g] ∧ ⟨g, .goal closing, some m.id, 0, []⟩ ∈ t.nodes := by
  have hnodup := h.numbered.nodup
  obtain ⟨n, hn, rfl, hcontent, -⟩ := exists_node_of_mem_spots hg
  replace hcontent : n.content = .goal closing := hcontent
  have hgoal : n.isGoal := by
    rw [Node.isGoal, Node.asEntry, hcontent]
    rfl
  have hchildren : n.children = [] := by
    have hleaf := isGoal_eq_isEmpty_children hn
    rwa [hgoal, eq_comm, List.isEmpty_iff] at hleaf
  have hparent := h.parent_isSome hn hgoal
  rcases mem_tops_or_mem_children hn with htop | ⟨m, hm, hchild⟩
  · rw [parent_eq_none_of_mem_tops hnodup hn htop] at hparent
    cases hparent
  · have halone := h.goal_alone hm hn hgoal hchild
    obtain ⟨n', hn', hid, hparent', hposition⟩ :=
      exists_node_of_mem_children (c := n.id) (i := 0) hm (by simp [halone])
    obtain rfl := node_eq_of_id_eq hnodup hn' hn hid
    refine ⟨m, hm, halone, ?_⟩
    rwa [← hcontent, ← hparent', ← hposition, ← hchildren]

end WellFormed

/-! ### Entries and their children -/

/-- The numbers of the entries. -/
def entryIds (t : Tableau) : List NodeId :=
  (t.nodes.filter (! ·.isGoal)).map Node.id

theorem mem_entryIds_iff {c : NodeId} :
    c ∈ t.entryIds ↔ ∃ p ∈ t.spots, p.id = c ∧ ∃ e, p.content = .entry e := by
  have hentry (content : Content) (n : Node) (h : n.content = content) :
      n.isGoal = false ↔ ∃ e, content = .entry e := by
    cases content <;> simp [Node.isGoal, Node.asEntry, h]
  simp only [entryIds, List.mem_map, List.mem_filter, Bool.not_eq_true']
  constructor
  · rintro ⟨n, ⟨hn, hgoal⟩, rfl⟩
    obtain ⟨p, hp, hid, hcontent, -⟩ := exists_spot_of_mem_nodes hn
    exact ⟨p, hp, hid, (hentry p.content n hcontent.symm).mp hgoal⟩
  · rintro ⟨p, hp, rfl, hcontent⟩
    obtain ⟨n, hn, hid, hcontent', -⟩ := exists_node_of_mem_spots hp
    exact ⟨n, ⟨hn, (hentry p.content n hcontent').mpr hcontent⟩, hid⟩

theorem isChild_iff {c k : NodeId} :
    t.IsChild c k ↔ ∃ p ∈ t.spots, p.id = c ∧ p.above.head?.map Entry.id = some k := by
  constructor
  · rintro ⟨n, hn, rfl, hk⟩
    obtain ⟨p, hp, hid, -, hparent⟩ := exists_spot_of_mem_nodes hn
    exact ⟨p, hp, hid, hparent.trans hk⟩
  · rintro ⟨p, hp, rfl, hk⟩
    obtain ⟨n, hn, hid, -, hparent⟩ := exists_node_of_mem_spots hp
    exact ⟨n, hn, hid, hparent.trans hk⟩

theorem lt_size_of_mem_entryIds {c : NodeId} (h : t.WellFormed) (hc : c ∈ t.entryIds) :
    c < t.size := by
  obtain ⟨p, hp, rfl, -⟩ := mem_entryIds_iff.mp hc
  exact h.numbered.mem_ids_iff.mp (id_mem_ids hp)

theorem not_mem_goals_of_mem_entryIds {c : NodeId} (hnodup : t.ids.Nodup) (hc : c ∈ t.entryIds) :
    c ∉ t.goals := by
  intro hgoal
  obtain ⟨p, hp, rfl, e, hentry⟩ := mem_entryIds_iff.mp hc
  obtain ⟨q, hq, ⟨closing, hcontent⟩, hid⟩ := (mem_goals_iff []).mp hgoal
  rw [spot_eq_of_id_eq hnodup hq hp hid, hentry] at hcontent
  exact Content.noConfusion hcontent

namespace IsChild

variable {c k : NodeId}

theorem lt_size (h : t.WellFormed) (hchild : t.IsChild c k) : c < t.size := by
  obtain ⟨p, hp, rfl, -⟩ := isChild_iff.mp hchild
  exact h.numbered.mem_ids_iff.mp (id_mem_ids hp)

theorem mem_entryIds (hchild : t.IsChild c k) : k ∈ t.entryIds := by
  obtain ⟨p, hp, rfl, hk⟩ := isChild_iff.mp hchild
  obtain ⟨e, he, rfl⟩ := Option.map_eq_some_iff.mp hk
  obtain ⟨upper, habove⟩ := List.head?_eq_some_iff.mp he
  have hsplit : p.above = [] ++ e :: upper := habove
  exact mem_entryIds_iff.mpr ⟨_, mem_spots_of_above hp hsplit, rfl, e, rfl⟩

theorem mem_goals_or_mem_entryIds (hchild : t.IsChild c k) : c ∈ t.goals ∨ c ∈ t.entryIds := by
  obtain ⟨p, hp, rfl, -⟩ := isChild_iff.mp hchild
  cases hcontent : p.content with
  | entry e => exact .inr (mem_entryIds_iff.mpr ⟨p, hp, rfl, e, hcontent⟩)
  | goal closing => exact .inl ((mem_goals_iff []).mpr ⟨p, hp, ⟨closing, hcontent⟩, rfl⟩)

/-- A goal has no sibling. -/
theorem eq_of_mem_goals {g : NodeId} (h : t.WellFormed) (hg : g ∈ t.goals) (hgoal : t.IsChild g k)
    (hchild : t.IsChild c k) : c = g := by
  have hnodup := h.numbered.nodup
  obtain ⟨p, hp, rfl, -⟩ := mem_entryIds_iff.mp hchild.mem_entryIds
  obtain ⟨n, hn, hid, -, -⟩ := exists_node_of_mem_spots hp
  have hmem {d : NodeId} : t.IsChild d p.id → d ∈ n.children := by
    rw [mem_children_iff hnodup hn, hid]
    exact id
  have hsingle := h.shaped.children_eq_singleton hnodup hn (hmem hgoal) hg
  exact List.mem_singleton.mp (hsingle ▸ hmem hchild)

end IsChild

end SignedTableaux.Tableau
