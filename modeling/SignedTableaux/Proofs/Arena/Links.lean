import SignedTableaux.Proofs.Arena.Simulation
import SignedTableaux.Proofs.Session.Representation

/-!
# Links in a store after a run

Whatever requests are made, the links and marks of the slots stay in step: the check of the store
finds nothing wrong, and the walks that it makes end by themselves. What the check looks at is not
enough to go on from: where a goal splits, its place among its siblings is counted on by one, which
is right because it has none, and this the check does not see. So more is shown: numbers grow
downwards, every node but the root is listed once, and a goal has no sibling.

## Main definitions

* `Arena.FitsAt` — what a node has to do with its children
* `Arena.WellLinked` — what parents, places, child lists and marks have to do with each other
* `ArenaSession.Splits`, `ArenaSession.produced` — uses of the beta rule, and the formulas that a
  request adds

## Main results

* `Arena.check_eq_ok_iff` — what the check of a store looks at
* `Arena.Holds.check_eq` — the check of a store that holds a well-formed tableau
* `Arena.Holds.wellLinked` — such a store is well linked
* `ArenaSession.representation_after` — the links after every run, and where two children come from
-/

namespace SignedTableaux

theorem forM_eq_ok_iff {ε α : Type} {f : α → Except ε Unit} {l : List α} {u : Unit} :
    l.forM f = .ok u ↔ ∀ x ∈ l, f x = .ok () := by
  induction l with
  | nil => exact ⟨fun _ _ hx => absurd hx List.not_mem_nil, fun _ => rfl⟩
  | cons x l ih =>
    change (f x >>= fun _ => l.forM f) = .ok u ↔ _
    rw [bind_eq_ok, List.forall_mem_cons, ← ih]
    constructor
    · rintro ⟨_, hx, hl⟩
      exact ⟨hx, hl⟩
    · rintro ⟨hx, hl⟩
      exact ⟨(), hx, hl⟩

namespace Arena

variable {a : Arena} {t : Tableau}

/-! ### The check -/

/-- Whether the children of a node name it as their parent, with their places, and the marks of the
node fit. -/
structure FitsAt (a : Arena) (id : NodeId) (s : Slot) : Prop where
  child : ∀ i c, s.children[i]? = some c →
    ∃ x, a.slot? c = some x ∧ x.parent = some id ∧ x.position = i
  /-- A node without a formula is a goal and a leaf. -/
  leaf : s.formula = none → s.isGoal ∧ s.children = []
  /-- A node with a formula is neither. -/
  inner : s.formula ≠ none → ¬ s.isGoal ∧ s.children ≠ []
  closed : s.isClosed → s.isGoal

theorem checkChild_eq_ok_iff {id c : NodeId} {i : Nat} :
    a.checkChild id c i = .ok () ↔
      ∃ x, a.slot? c = some x ∧ x.parent = some id ∧ x.position = i := by
  simp only [checkChild, bind_eq_ok, slot, orFail_eq_ok, require_eq_ok]

theorem checkNode_eq_ok_iff {id : NodeId} :
    a.checkNode id = .ok () ↔ ∃ s, a.slot? id = some s ∧ a.FitsAt id s := by
  simp only [checkNode, bind_eq_ok, slot, orFail_eq_ok, require_eq_ok, forM_eq_ok_iff,
    checkChild_eq_ok_iff, Prod.forall, List.mk_mem_zipIdx_iff_getElem?]
  constructor
  · rintro ⟨s, hs, _, hchild, _, hleaf, _, hinner, hclosed⟩
    exact ⟨s, hs, fun i c => hchild c i, hleaf, hinner, hclosed⟩
  · rintro ⟨s, hs, hchild, hleaf, hinner, hclosed⟩
    exact ⟨s, hs, (), fun c i => hchild i c, (), hleaf, (), hinner, hclosed⟩

/-- What the check looks at. -/
theorem check_eq_ok_iff :
    a.check = .ok () ↔
      (a.descendants a.root).length = a.slots.length ∧ a.parent? a.root = none ∧
        ∀ id ∈ a.descendants a.root, ∃ s, a.slot? id = some s ∧ a.FitsAt id s := by
  simp only [check, bind_eq_ok, require_eq_ok, forM_eq_ok_iff, checkNode_eq_ok_iff]
  constructor
  · rintro ⟨_, hlength, _, hroot, hfits⟩
    exact ⟨hlength, hroot, hfits⟩
  · rintro ⟨hlength, hroot, hfits⟩
    exact ⟨(), hlength, (), hroot, hfits⟩

/-- A goal that does not name its parent is found. -/
example :
    ((Arena.start ⟨.denied, .pred "P" []⟩).update 1 fun s => { s with parent := none }).check =
      .error (.invariant (.fault (.misplaced 1 0 0 none 0))) := by
  decide

/-- Parents, places, child lists and marks fit together. -/
structure WellLinked (a : Arena) : Prop where
  check_eq : a.check = .ok ()
  fitsAt : ∀ id s, a.slot? id = some s → a.FitsAt id s
  /-- Every walk up ends, without a bound on its steps. -/
  climbs : ∀ id, a.Climbs id (a.ancestors id)
  /-- Every walk down ends, without a bound on its steps. -/
  visits : ∀ id, a.Visits [id] (a.descendants id)
  /-- Every node but the root has a parent, with a smaller number. -/
  parent_lt : ∀ id s, a.slot? id = some s → id ≠ a.root → ∃ k, s.parent = some k ∧ k < id
  /-- Every node but the root is in one child list, that of its parent, and there once. -/
  listed_once : ∀ id s, a.slot? id = some s → id ≠ a.root →
    ∃ k p, s.parent = some k ∧ a.slot? k = some p ∧ p.children.count id = 1 ∧
      ∀ k' p', a.slot? k' = some p' → id ∈ p'.children → k' = k
  root_not_listed : ∀ k p, a.slot? k = some p → a.root ∉ p.children
  length_children_le : ∀ id s, a.slot? id = some s → s.children.length ≤ 2
  /-- A goal has a parent, and is its only child. -/
  goal_alone : ∀ id s, a.slot? id = some s → s.isGoal →
    ∃ k p, s.parent = some k ∧ a.slot? k = some p ∧ p.children = [id]

namespace Holds

/-- The leaves are the goals, and only goals are closed. -/
theorem fitsAt {n : Node} (h : a.Holds t) (hformed : t.WellFormed) (hn : n ∈ t.nodes) :
    a.FitsAt n.id (.ofNode n) := by
  have hleaf := Tableau.isGoal_eq_isEmpty_children hn
  have hchild (i : Nat) (c : NodeId) (hc : (Slot.ofNode n).children[i]? = some c) :
      ∃ x, a.slot? c = some x ∧ x.parent = some n.id ∧ x.position = i := by
    obtain ⟨m, hm, rfl, hparent, hposition⟩ :=
      Tableau.exists_node_of_mem_children hn (List.mk_mem_zipIdx_iff_getElem?.mpr hc)
    exact ⟨_, h.slot?_of_mem_nodes hformed.numbered.nodup hm, hparent, hposition⟩
  rcases hcontent : n.content with e | closing
  · have hgoal : n.isGoal = false := by simp [Node.isGoal, Node.asEntry, hcontent]
    have hne : n.children ≠ [] := List.isEmpty_eq_false_iff.mp (hleaf.symm.trans hgoal)
    refine ⟨hchild, ?_, ?_, ?_⟩ <;> simp [Slot.ofNode_of_entry hcontent, hne]
  · have hgoal : n.isGoal = true := by simp [Node.isGoal, Node.asEntry, hcontent]
    have hnil : n.children = [] := List.isEmpty_iff.mp (hleaf.symm.trans hgoal)
    refine ⟨hchild, ?_, ?_, ?_⟩ <;> simp [Slot.ofNode_of_goal hcontent, hnil]

theorem check_eq (h : a.Holds t) (hformed : t.WellFormed) : a.check = .ok () := by
  have hfound : a.descendants a.root = t.ids := by
    rw [h.root_eq, h.descendants_eq hformed, hformed.descendants_root]
  have hroot : a.parent? a.root = none := by
    obtain ⟨n, hn, hid⟩ := hformed.exists_root_node
    rw [h.root_eq, ← hid, h.parent?_of_mem_nodes hformed.numbered.nodup hn]
    exact (hformed.parent_eq_none_iff hn).mpr hid
  rw [check_eq_ok_iff, hfound, h.length_eq hformed.numbered]
  refine ⟨rfl, hroot, fun id hid => ?_⟩
  obtain ⟨n, hn, rfl⟩ := Tableau.exists_node hid
  exact ⟨_, h.slot?_of_mem_nodes hformed.numbered.nodup hn, h.fitsAt hformed hn⟩

/-! ### Links -/

theorem exists_node_of_slot? {id : NodeId} {s : Slot} (h : a.Holds t) (hs : a.slot? id = some s) :
    ∃ n ∈ t.nodes, n.id = id ∧ s = .ofNode n := by
  rw [h.slot?_eq, Option.map_eq_some_iff] at hs
  obtain ⟨n, hn, rfl⟩ := hs
  obtain ⟨hmem, hid⟩ := Tableau.mem_nodes_of_node? hn
  exact ⟨n, hmem, hid, rfl⟩

/-- The node that lists a node other than the root. -/
theorem exists_parent_of_slot? {id : NodeId} {s : Slot} (h : a.Holds t) (hformed : t.WellFormed)
    (hs : a.slot? id = some s) (hroot : id ≠ a.root) :
    ∃ m ∈ t.nodes, id ∈ m.children ∧ s.parent = some m.id := by
  obtain ⟨n, hn, rfl, rfl⟩ := h.exists_node_of_slot? hs
  rcases Tableau.mem_tops_or_mem_children hn with htop | ⟨m, hm, hchild⟩
  · rw [hformed.tops_eq, List.mem_singleton, ← h.root_eq] at htop
    exact absurd htop hroot
  · obtain ⟨n', hn', hid, hparent⟩ := Tableau.isChild_of_mem_children hm hchild
    obtain rfl := Tableau.node_eq_of_id_eq hformed.numbered.nodup hn' hn hid
    exact ⟨m, hm, hchild, hparent⟩

/-- A store that holds a well-formed tableau is well linked. -/
theorem wellLinked (h : a.Holds t) (hformed : t.WellFormed) : a.WellLinked where
  check_eq := h.check_eq hformed
  fitsAt id s hs := by
    obtain ⟨n, hn, rfl, rfl⟩ := h.exists_node_of_slot? hs
    exact h.fitsAt hformed hn
  climbs := h.climbs hformed
  visits := h.visits hformed
  parent_lt id s hs hroot := by
    obtain ⟨m, hm, -, hparent⟩ := h.exists_parent_of_slot? hformed hs hroot
    obtain ⟨n, hn, rfl, rfl⟩ := h.exists_node_of_slot? hs
    exact ⟨m.id, hparent, hformed.parent_lt hn hparent⟩
  listed_once id s hs hroot := by
    have hnodup := hformed.numbered.nodup
    obtain ⟨m, hm, hchild, hparent⟩ := h.exists_parent_of_slot? hformed hs hroot
    refine ⟨m.id, _, hparent, h.slot?_of_mem_nodes hnodup hm, ?_, fun k' p' hp' hid => ?_⟩
    · exact List.count_eq_one_of_mem (Tableau.nodup_children hnodup hm) hchild
    · obtain ⟨m', hm', rfl, rfl⟩ := h.exists_node_of_slot? hp'
      exact (Tableau.isChild_of_mem_children hm' hid).parent_eq hnodup
        (Tableau.isChild_of_mem_children hm hchild)
  root_not_listed k p hp hmem := by
    obtain ⟨m, hm, rfl, rfl⟩ := h.exists_node_of_slot? hp
    obtain ⟨n, hn, hid, hparent⟩ := Tableau.isChild_of_mem_children hm hmem
    rw [(hformed.parent_eq_none_iff hn).mpr (hid.trans h.root_eq)] at hparent
    cases hparent
  length_children_le id s hs := by
    obtain ⟨n, hn, rfl, rfl⟩ := h.exists_node_of_slot? hs
    exact hformed.shaped.length_children_le hn
  goal_alone id s hs hgoal := by
    obtain ⟨n, hn, rfl, rfl⟩ := h.exists_node_of_slot? hs
    obtain ⟨k, hparent⟩ := Option.isSome_iff_exists.mp (hformed.parent_isSome hn hgoal)
    have hroot : n.id ≠ a.root := fun heq => by
      rw [(hformed.parent_eq_none_iff hn).mpr (heq.trans h.root_eq)] at hparent
      cases hparent
    obtain ⟨m, hm, hchild, hparent⟩ := h.exists_parent_of_slot? hformed hs hroot
    refine ⟨m.id, _, hparent, h.slot?_of_mem_nodes hformed.numbered.nodup hm, ?_⟩
    exact hformed.goal_alone hm hn hgoal hchild

end Holds

/-- The numbers of the nodes that hold a formula. -/
def formulaIds (a : Arena) : List NodeId :=
  (List.range a.slots.length).filter fun id => (a.slot? id).any (·.formula.isSome)

theorem Holds.mem_formulaIds_iff {c : NodeId} (h : a.Holds t) (hnodup : t.ids.Nodup) :
    c ∈ a.formulaIds ↔ c ∈ t.entryIds := by
  have hformula (n : Node) : (Slot.ofNode n).formula.isSome = !n.isGoal := by
    simp [Slot.ofNode, Node.isGoal, ← Option.not_isSome]
  simp only [formulaIds, Tableau.entryIds, List.mem_filter, List.mem_range, List.mem_map,
    Option.any_eq_true]
  constructor
  · rintro ⟨-, s, hs, hsome⟩
    obtain ⟨n, hn, rfl, rfl⟩ := h.exists_node_of_slot? hs
    exact ⟨n, ⟨hn, (hformula n).symm.trans hsome⟩, rfl⟩
  · rintro ⟨n, ⟨hn, hgoal⟩, rfl⟩
    have hslot := h.slot?_of_mem_nodes hnodup hn
    exact ⟨lt_length_of_slot? hslot, _, hslot, (hformula n).trans hgoal⟩

end Arena

/-! ### Runs -/

namespace ArenaSession

/-- Whether a request is an accepted use of the beta rule. -/
def Splits (S : ArenaSession) (r : Request) : Prop :=
  r.rule? = some .beta ∧ (S.perform r).1.isOk

/-- The numbers of the nodes that a request gives a formula. -/
def produced (S : ArenaSession) (r : Request) : List NodeId :=
  (S.perform r).2.arena.formulaIds.filter (· ∉ S.arena.formulaIds)

variable {S : ArenaSession} {s : Session}

theorem Stores.splits_iff (h : S.Stores s) (r : Request) : S.Splits r ↔ s.Splits r := by
  rw [Splits, (h.perform r).1, Session.Splits]

theorem Stores.mem_produced_iff (h : S.Stores s) (r : Request) {c : NodeId} :
    c ∈ S.produced r ↔ c ∈ s.produced r := by
  have hafter := (h.perform r).2
  simp only [produced, Session.produced, List.mem_filter, decide_eq_true_eq,
    hafter.holds.mem_formulaIds_iff hafter.wellFormed.numbered.nodup,
    h.holds.mem_formulaIds_iff h.wellFormed.numbered.nodup]

/-- After every run the store is well linked. A node has two children exactly when they are the
nodes that one accepted use of the beta rule gave their formulas, and a use of the beta rule that
made one child of a node made just its children. -/
theorem representation_after (φ : Term) (rs : List Request) :
    ((ofFormula φ).after rs).arena.WellLinked ∧
      ∀ id s, ((ofFormula φ).after rs).arena.slot? id = some s →
        (s.children.length = 2 ↔
          ∃ pre r, pre ++ [r] <+: rs ∧ ((ofFormula φ).after pre).Splits r ∧
            ∀ c, c ∈ s.children ↔ c ∈ ((ofFormula φ).after pre).produced r) ∧
        ∀ pre r, pre ++ [r] <+: rs → ((ofFormula φ).after pre).Splits r →
          ∀ c ∈ s.children, c ∈ ((ofFormula φ).after pre).produced r →
            ∀ d, d ∈ s.children ↔ d ∈ ((ofFormula φ).after pre).produced r := by
  have hstores := stores_after φ rs
  refine ⟨hstores.holds.wellLinked hstores.wellFormed, fun id s hs => ?_⟩
  obtain ⟨n, hn, rfl, rfl⟩ := hstores.holds.exists_node_of_slot? hs
  simp only [(stores_after φ _).splits_iff, (stores_after φ _).mem_produced_iff]
  exact Session.children_after φ rs hn

/-- A denied conjunction splits, and its root gets two children. -/
theorem exists_splits_bothAtoms :
    ∃ s, ((ofFormula Session.bothAtoms).after [.applyRule .beta 1 0]).arena.slot? 0 = some s ∧
      s.children = [1, 2] ∧
      ∃ pre r, pre ++ [r] <+: [.applyRule .beta 1 0] ∧
        ((ofFormula Session.bothAtoms).after pre).Splits r ∧
        ∀ c, c ∈ s.children ↔ c ∈ ((ofFormula Session.bothAtoms).after pre).produced r := by
  have hroot : ∃ s, ((ofFormula Session.bothAtoms).after [.applyRule .beta 1 0]).arena.slot? 0 =
      some s ∧ s.children = [1, 2] :=
    ⟨_, rfl, rfl⟩
  obtain ⟨s, hs, hchildren⟩ := hroot
  refine ⟨s, hs, hchildren, ((representation_after Session.bothAtoms _).2 0 s hs).1.mp ?_⟩
  rw [hchildren]
  rfl

end ArenaSession

end SignedTableaux
