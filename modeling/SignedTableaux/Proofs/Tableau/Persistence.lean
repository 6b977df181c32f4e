import SignedTableaux.Proofs.Tableau.Layout
import SignedTableaux.Proofs.Tableau.Offspring

/-!
# What becomes of a node

A tableau changes at its open goals only. Whatever else happens, a node keeps its place: its number,
its parent, its position among its siblings and the nodes above it. A new sibling does not move it,
as it is put to the right of a former goal, and a goal is an only child. Unless it is an open goal,
a node also keeps what it holds.

## Main definitions

* `Node.Becomes` — a node and what has become of it
* `Tableau.Extends` — every node of a tableau is in another one, at its place

## Main results

* `Tableau.exists_becomes_graft`, `Tableau.exists_becomes_closeBelow` — nodes after the two changes
* `Tableau.WellFormed.extends_expand`, `Tableau.WellFormed.extends_closeBelow` — both changes extend
  a tableau
-/

namespace SignedTableaux

/-- Whether `m` can be what has become of `n`: it stands at the same place, and it holds the same
unless `n` is an open goal. -/
structure Node.Becomes (n m : Node) : Prop where
  id_eq : m.id = n.id
  parent_eq : m.parent = n.parent
  position_eq : m.position = n.position
  content_eq : n.content ≠ .goal none → m.content = n.content

namespace Node

variable {n m k : Node}

theorem Becomes.refl (n : Node) : n.Becomes n :=
  ⟨rfl, rfl, rfl, fun _ => rfl⟩

theorem Becomes.trans (h : n.Becomes m) (h' : m.Becomes k) : n.Becomes k where
  id_eq := h'.id_eq.trans h.id_eq
  parent_eq := h'.parent_eq.trans h.parent_eq
  position_eq := h'.position_eq.trans h.position_eq
  content_eq hne := by
    have hcontent := h.content_eq hne
    rw [h'.content_eq (hcontent ▸ hne), hcontent]

/-- An entry stays. -/
theorem Becomes.asEntry_eq {e : Entry} (h : n.Becomes m) (he : n.asEntry = some e) :
    m.asEntry = some e := by
  have hcontent := content_of_asEntry he
  have hm : m.content = .entry e := by
    rw [h.content_eq (by simp [hcontent]), hcontent]
  rw [asEntry, hm]

theorem exists_closing_of_isClosed (h : n.isClosed) : ∃ σ, n.content = .goal (some σ) := by
  cases hcontent : n.content with
  | entry e => simp [isClosed, closing?, hcontent] at h
  | goal closing => cases closing <;> simp_all [isClosed, closing?]

/-- The node with its goal open. -/
def reopen (n : Node) : Node :=
  match n.content with
  | .entry _ => n
  | .goal _ => { n with content := .goal none }

theorem eq_of_reopen_eq (h : n.reopen = m.reopen) :
    n.id = m.id ∧ n.parent = m.parent ∧ n.position = m.position ∧ n.children = m.children := by
  obtain ⟨id, content, parent, position, children⟩ := n
  obtain ⟨id', content', parent', position', children'⟩ := m
  cases content <;> cases content' <;> simp_all [reopen]

end Node

namespace Tableau

variable {t sub : Tableau} {n : Node} {g id : NodeId} {parent : Option NodeId} {position : Nat}
  {σ : Substitution}

/-! ### Growth -/

/-- Every node is still there after a goal is replaced by something that starts with its number: the
goal becomes the first node of that, and all other nodes stay as they are. -/
theorem exists_becomes_graft (hshaped : t.Shaped)
    (hsub : ∀ parent position, ∃ m ∈ sub.nodesFrom parent position,
      m.id = g ∧ m.parent = parent ∧ m.position = position)
    (hn : n ∈ t.nodesFrom parent position) (hopen : n.id = g → n.content = .goal none) :
    ∃ m ∈ (t.graft g sub).nodesFrom parent position, n.Becomes m := by
  induction t generalizing parent position with
  | goal id closing =>
    obtain rfl := List.mem_singleton.mp hn
    by_cases hid : id = g
    · obtain ⟨m, hm, hmid, hparent, hposition⟩ := hsub parent position
      rw [graft, if_pos hid]
      exact ⟨m, hm, hmid.trans hid.symm, hparent, hposition, fun hne => absurd (hopen hid) hne⟩
    · rw [graft, if_neg hid]
      exact ⟨_, hn, .refl _⟩
  | step e rest ih =>
    rcases List.mem_cons.mp hn with rfl | hn
    · exact ⟨_, List.mem_cons_self, rfl, rfl, rfl, fun _ => rfl⟩
    · obtain ⟨m, hm, hbecomes⟩ := ih hshaped hn
      exact ⟨m, List.mem_cons_of_mem _ hm, hbecomes⟩
  | fork left right ihl ihr =>
    obtain ⟨hl, hr, hleft, -⟩ := hshaped
    rcases List.mem_append.mp hn with hn | hn
    · obtain ⟨m, hm, hbecomes⟩ := ihl hl hn
      exact ⟨m, List.mem_append_left _ hm, hbecomes⟩
    · have htops : (left.graft g sub).tops = left.tops := by
        obtain ⟨e, rest, rfl⟩ := exists_step_of_rootEntry hleft
        rfl
      obtain ⟨m, hm, hbecomes⟩ := ihr hr hn
      refine ⟨m, List.mem_append_right _ ?_, hbecomes⟩
      rwa [htops]

/-- An expansion starts with an entry that takes over the number and the place of the goal. -/
theorem exists_node_mem_ofExpansion (g next : NodeId) (origin : Origin) (expansion : Expansion)
    (parent : Option NodeId) (position : Nat) :
    ∃ m ∈ (ofExpansion g next origin expansion).nodesFrom parent position,
      m.id = g ∧ m.parent = parent ∧ m.position = position := by
  cases expansion with
  | linear first others => exact ⟨_, List.mem_cons_self, rfl, rfl, rfl⟩
  | branching left right => exact ⟨_, List.mem_cons_self, rfl, rfl, rfl⟩

/-! ### Closing -/

theorem nodesFrom_reopen (t : Tableau) (parent : Option NodeId) (position : Nat) :
    t.reopen.nodesFrom parent position = (t.nodesFrom parent position).map Node.reopen := by
  induction t generalizing parent position with
  | goal id closing => rfl
  | step e rest ih => simp [reopen, nodesFrom, Node.reopen, tops_reopen, ih]
  | fork left right ihl ihr => simp [reopen, nodesFrom, tops_reopen, ihl, ihr]

/-- Every node is still there after goals are closed: open goals may be closed, and all other nodes
stay as they are. -/
theorem exists_becomes_closeBelow (id : NodeId) (σ : Substitution) (hnodup : t.ids.Nodup)
    (hn : n ∈ t.nodes) : ∃ m ∈ (t.closeBelow id σ).nodes, n.Becomes m := by
  have hreopen : n.reopen ∈ (t.closeBelow id σ).nodes.map Node.reopen := by
    rw [nodes, ← nodesFrom_reopen, reopen_closeBelow, nodesFrom_reopen]
    exact List.mem_map_of_mem hn
  obtain ⟨m, hm, heq⟩ := List.mem_map.mp hreopen
  obtain ⟨hid, hparent, hposition, -⟩ := Node.eq_of_reopen_eq heq
  refine ⟨m, hm, hid, hparent, hposition, fun hne => ?_⟩
  obtain ⟨q, hq, hqid, hqcontent, -⟩ := exists_spot_of_mem_nodes hm
  rw [spots_closeBelow] at hq
  obtain ⟨p, hp, rfl⟩ := List.mem_map.mp hq
  obtain ⟨p', hp', hp'id, hp'content, -⟩ := exists_spot_of_mem_nodes hn
  rw [Spot.closeBelow_id] at hqid
  obtain rfl := spot_eq_of_id_eq hnodup hp hp' (by rw [hqid, hid, hp'id])
  rw [← hqcontent, Spot.closeBelow_content, if_neg (fun hopen => hne (hp'content ▸ hopen.1)),
    hp'content]

/-! ### Extension -/

/-- Whether every node of `t` is in `t'`, at its place. -/
structure Extends (t t' : Tableau) : Prop where
  size_le : t.size ≤ t'.size
  kept : ∀ id n, t.node? id = some n → ∃ m, t'.node? id = some m ∧ n.Becomes m ∧
    t'.ancestors id = t.ancestors id

theorem Extends.refl (t : Tableau) : t.Extends t :=
  ⟨Nat.le_refl _, fun _ n h => ⟨n, h, .refl n, rfl⟩⟩

theorem Extends.trans {t' t'' : Tableau} (h : t.Extends t') (h' : t'.Extends t'') :
    t.Extends t'' where
  size_le := Nat.le_trans h.size_le h'.size_le
  kept id n hn := by
    obtain ⟨m, hm, hbecomes, hancestors⟩ := h.kept id n hn
    obtain ⟨k, hk, hbecomes', hancestors'⟩ := h'.kept id m hm
    exact ⟨k, hk, hbecomes.trans hbecomes', hancestors'.trans hancestors⟩

theorem mem_nodes_of_node? (h : t.node? id = some n) : n ∈ t.nodes ∧ n.id = id :=
  ⟨List.mem_of_find?_eq_some h, by simpa using List.find?_some h⟩

theorem exists_node?_of_mem_spots {p : Spot} (hnodup : t.ids.Nodup) (hp : p ∈ t.spots) :
    ∃ n, t.node? p.id = some n ∧ n.content = p.content := by
  obtain ⟨n, hn, hid, hcontent, -⟩ := exists_node_of_mem_spots hp
  exact ⟨n, hid ▸ node?_eq_some hnodup hn, hcontent⟩

theorem ancestors_of_mem_spots {p : Spot} (hnodup : t.ids.Nodup) (hp : p ∈ t.spots) :
    t.ancestors p.id = p.above.map Entry.id := by
  rw [ancestors, lineage?_eq, spot?_eq_some hnodup hp]
  rfl

/-- A closed goal is a goal without children, and becomes no other node. -/
theorem eq_of_isClosed {t' : Tableau} {m : Node} (hn : n ∈ t.nodes) (hm : m ∈ t'.nodes)
    (h : n.Becomes m) (hclosed : n.isClosed) : n.isGoal ∧ n.children = [] ∧ m = n := by
  obtain ⟨τ, hτ⟩ := Node.exists_closing_of_isClosed hclosed
  have hcontent : m.content = n.content := h.content_eq (by simp [hτ])
  have hgoal {k : Node} (hk : k.content = .goal (some τ)) : k.isGoal := by
    simp [Node.isGoal, Node.asEntry, hk]
  have hchildren : n.children = [] :=
    List.isEmpty_iff.mp ((isGoal_eq_isEmpty_children hn).symm.trans (hgoal hτ))
  have hchildren' : m.children = [] :=
    List.isEmpty_iff.mp ((isGoal_eq_isEmpty_children hm).symm.trans (hgoal (hcontent.trans hτ)))
  refine ⟨hgoal hτ, hchildren, ?_⟩
  obtain ⟨hid, hparent, hposition, -⟩ := h
  cases n
  cases m
  simp_all

/-- A tableau is extended where every node has become another one, and every spot has one below the
same entries. -/
theorem extends_of_becomes {t' : Tableau} (hnodup : t.ids.Nodup) (hnodup' : t'.ids.Nodup)
    (hsize : t.size ≤ t'.size) (hnodes : ∀ n ∈ t.nodes, ∃ m ∈ t'.nodes, n.Becomes m)
    (hspots : ∀ p ∈ t.spots, ∃ q ∈ t'.spots, q.id = p.id ∧ q.above = p.above) :
    t.Extends t' := by
  refine ⟨hsize, fun id n hn => ?_⟩
  obtain ⟨hmem, rfl⟩ := mem_nodes_of_node? hn
  obtain ⟨m, hm, hbecomes⟩ := hnodes n hmem
  obtain ⟨p, hp, hid, -, -⟩ := exists_spot_of_mem_nodes hmem
  obtain ⟨q, hq, hqid, habove⟩ := hspots p hp
  refine ⟨m, ?_, hbecomes, ?_⟩
  · rw [← hbecomes.id_eq]
    exact node?_eq_some hnodup' hm
  · rw [← hid, ancestors_of_mem_spots hnodup hp, ← hqid, ancestors_of_mem_spots hnodup' hq, habove]

namespace WellFormed

/-- An expansion at an open goal extends a tableau. -/
theorem extends_expand {above : List Entry} (h : t.WellFormed)
    (hg : ⟨g, .goal none, above⟩ ∈ t.spots) (origin : Origin) (expansion : Expansion) :
    t.Extends (t.expand g origin expansion).1 := by
  have hnodup := h.numbered.nodup
  have hgoal := mem_goals_of_mem_spots hg
  refine extends_of_becomes hnodup (h.numbered.expand hgoal).nodup ?size (fun n hn => ?node)
    (fun p hp => ?spot)
  case size => exact Nat.le_of_add_right_le (Nat.le_of_eq (size_expand hnodup hgoal).symm)
  case node =>
    refine exists_becomes_graft h.shaped (exists_node_mem_ofExpansion g t.size origin expansion) hn
      fun hid => ?_
    obtain ⟨p, hp, hpid, hcontent, -⟩ := exists_spot_of_mem_nodes hn
    rw [← hcontent, spot_eq_of_id_eq hnodup hp hg (hpid.trans hid)]
  case spot =>
    by_cases hid : p.id = g
    · obtain ⟨e, he, hmem⟩ := exists_entry_mem_ofExpansion g t.size origin expansion above
      obtain rfl := spot_eq_of_id_eq hnodup hp hg hid
      exact ⟨_, (mem_spots_graft_of_nodup hnodup hg).mpr (.inr hmem), he, rfl⟩
    · exact ⟨p, (mem_spots_graft_of_nodup hnodup hg).mpr (.inl ⟨hp, hid⟩), rfl, rfl⟩

/-- Closing goals extends a tableau. -/
theorem extends_closeBelow (h : t.WellFormed) (id : NodeId) (σ : Substitution) :
    t.Extends (t.closeBelow id σ) := by
  have hnodup := h.numbered.nodup
  refine extends_of_becomes hnodup h.numbered.closeBelow.nodup ?size
    (fun n hn => exists_becomes_closeBelow id σ hnodup hn) (fun p hp => ?spot)
  case size => exact Nat.le_of_eq (congrArg List.length (ids_closeBelow id σ t).symm)
  case spot =>
    refine ⟨p.closeBelow id σ, ?_, Spot.closeBelow_id, Spot.closeBelow_above⟩
    rw [spots_closeBelow]
    exact List.mem_map_of_mem hp

end WellFormed

end Tableau

end SignedTableaux
