import Mathlib.Data.Nat.Basic
import Mathlib.Order.Basic
import SignedTableaux.Arena.Basic
import SignedTableaux.Proofs.Tableau.Walks

/-!
# Walks through a store

An arena holds a tableau if its slots are the nodes of the tableau, each under its number. The walks
through the arena follow the links that are stored, with a bound on the number of their steps; those
through the tableau are recursions on its form. In an arena that holds a well-formed tableau the
bound is never met, and both find the same.

## Main definitions

* `Slot.ofNode`, `Arena.Holds` — the slot of a node, and the arena of a tableau
* `Arena.Climbs`, `Arena.Visits` — the walks up and down, without a bound

## Main results

* `Arena.Holds.ancestors_eq`, `Arena.Holds.descendants_eq` — the walks up and down
* `Arena.Holds.climbs`, `Arena.Holds.visits` — they end by themselves
* `Arena.Holds.nearestFormula?_eq`, `Arena.Holds.freeVars_eq`, `Arena.Holds.isExpandedOn_eq`,
  `Arena.Holds.openGoalsBelow_eq`, `Arena.Holds.goals_eq` — what is found on the way
-/

namespace SignedTableaux

/-- The slot that stores a node. -/
def Slot.ofNode (n : Node) : Slot where
  sign := n.sign
  formula := n.asEntry.map (·.signed.formula)
  children := n.children
  parent := n.parent
  position := n.position
  isGoal := n.isGoal
  isClosed := n.isClosed
  closing := n.closing?
  introduced := n.asEntry.bind Entry.introduced
  origin := n.asEntry.bind Entry.origin

theorem Slot.ofNode_of_entry {n : Node} {e : Entry} (h : n.content = .entry e) :
    ofNode n = ⟨e.signed.sign, some e.signed.formula, n.children, n.parent, n.position, false,
      false, none, e.introduced, e.origin⟩ := by
  simp [ofNode, Node.sign, Node.isGoal, Node.isClosed, Node.closing?, Node.asEntry, h]

theorem Slot.ofNode_of_goal {n : Node} {closing : Option Substitution}
    (h : n.content = .goal closing) :
    ofNode n = ⟨.denied, none, n.children, n.parent, n.position, true, closing.isSome,
      closing, none, none⟩ := by
  simp [ofNode, Node.sign, Node.isGoal, Node.isClosed, Node.closing?, Node.asEntry, h]

namespace Tableau

variable {t : Tableau} {id : NodeId}

theorem node?_eq_none (hid : id ∉ t.ids) : t.node? id = none := by
  refine List.find?_eq_none.mpr fun n hn => ?_
  have hne : n.id ≠ id := fun heq => hid (heq ▸ mem_ids_of_mem_nodesFrom hn)
  simpa using hne

theorem spot?_eq_none (hid : id ∉ t.ids) : t.spot? id = none := by
  refine List.find?_eq_none.mpr fun p hp => ?_
  have hne : p.id ≠ id := fun heq => hid (heq ▸ id_mem_ids hp)
  simpa using hne

theorem branch?_eq_none (hid : id ∉ t.ids) : t.branch? id = none := by
  rw [branch?_eq, spot?_eq_none hid, Option.map_none]

theorem exists_spots_of_mem_above {p : Spot} {e : Entry} (hp : p ∈ t.spots) (he : e ∈ p.above) :
    ∃ upper, ⟨e.id, .entry e, upper⟩ ∈ t.spots := by
  obtain ⟨lower, upper, habove⟩ := List.append_of_mem he
  exact ⟨upper, mem_spots_of_above hp habove⟩

end Tableau

namespace Arena

variable {a : Arena} {t : Tableau} {id : NodeId} {n : Node}

/-- Whether the slots are the nodes of a tableau, each under its number. -/
structure Holds (a : Arena) (t : Tableau) : Prop where
  root_eq : a.root = t.root
  slot?_eq : ∀ id, a.slot? id = (t.node? id).map Slot.ofNode

/-- The walk up: it goes to the parent, as long as there is one. -/
inductive Climbs (a : Arena) : (id : NodeId) → (found : List NodeId) → Prop
  | done {id : NodeId} (hparent : a.parent? id = none) : a.Climbs id []
  | up {id k : NodeId} {found : List NodeId} (hparent : a.parent? id = some k)
      (hrest : a.Climbs k found) : a.Climbs id (k :: found)

/-- The walk down, with the nodes that are still to be visited on a stack: the children of a node
take its place, and a number that is not in use is passed over. -/
inductive Visits (a : Arena) : (stack found : List NodeId) → Prop
  | done : a.Visits [] []
  | skip {id : NodeId} {stack found : List NodeId} (hslot : a.slot? id = none)
      (hrest : a.Visits stack found) : a.Visits (id :: stack) found
  | visit {id : NodeId} {slot : Slot} {stack found : List NodeId} (hslot : a.slot? id = some slot)
      (hrest : a.Visits (slot.children ++ stack) found) : a.Visits (id :: stack) (id :: found)

namespace Holds

/-! ### Slots -/

theorem slot?_of_mem_nodes (h : a.Holds t) (hnodup : t.ids.Nodup) (hn : n ∈ t.nodes) :
    a.slot? n.id = some (.ofNode n) := by
  rw [h.slot?_eq, Tableau.node?_eq_some hnodup hn, Option.map_some]

theorem slot?_eq_none (h : a.Holds t) (hid : id ∉ t.ids) : a.slot? id = none := by
  rw [h.slot?_eq, Tableau.node?_eq_none hid, Option.map_none]

theorem exists_slot?_iff (h : a.Holds t) (hnodup : t.ids.Nodup) :
    (∃ slot, a.slot? id = some slot) ↔ id ∈ t.ids := by
  constructor
  · rintro ⟨slot, hslot⟩
    by_contra hid
    rw [h.slot?_eq_none hid] at hslot
    cases hslot
  · intro hid
    obtain ⟨n, hn, rfl⟩ := Tableau.exists_node hid
    exact ⟨_, h.slot?_of_mem_nodes hnodup hn⟩

/-- There are as many slots as nodes. -/
theorem length_eq (h : a.Holds t) (hnumbered : t.WellNumbered) : a.slots.length = t.size := by
  refine eq_of_forall_lt_iff fun id => ?_
  rw [← hnumbered.mem_ids_iff, ← h.exists_slot?_iff hnumbered.nodup, slot?]
  simp [List.getElem?_eq_some_iff]

/-- The slots of a tableau with as many nodes are all there is. -/
theorem of_mem_nodes (hnumbered : t.WellNumbered) (hroot : a.root = t.root)
    (hlength : a.slots.length = t.size)
    (hslots : ∀ n ∈ t.nodes, a.slot? n.id = some (.ofNode n)) : a.Holds t := by
  refine ⟨hroot, fun id => ?_⟩
  by_cases hid : id ∈ t.ids
  · obtain ⟨n, hn, rfl⟩ := Tableau.exists_node hid
    rw [hslots n hn, Tableau.node?_eq_some hnumbered.nodup hn, Option.map_some]
  · rw [Tableau.node?_eq_none hid, Option.map_none, slot?, List.getElem?_eq_none_iff, hlength]
    exact Nat.le_of_not_lt fun hlt => hid (hnumbered.mem_ids_iff.mpr hlt)

theorem slot?_of_entry {e : Entry} {above : List Entry} (h : a.Holds t) (hnodup : t.ids.Nodup)
    (he : ⟨e.id, .entry e, above⟩ ∈ t.spots) :
    ∃ slot, a.slot? e.id = some slot ∧ slot.sign = e.signed.sign ∧
      slot.formula = some e.signed.formula ∧ slot.introduced = e.introduced ∧
      slot.origin = e.origin := by
  obtain ⟨n, hn, hcontent⟩ := Tableau.exists_node?_of_mem_spots hnodup he
  refine ⟨.ofNode n, by rw [h.slot?_eq, hn, Option.map_some], ?_⟩
  rw [Slot.ofNode_of_entry hcontent]
  exact ⟨rfl, rfl, rfl, rfl⟩

theorem slot?_of_goal {p : Spot} {closing : Option Substitution} (h : a.Holds t)
    (hnodup : t.ids.Nodup) (hp : p ∈ t.spots) (hgoal : p.content = .goal closing) :
    ∃ slot, a.slot? p.id = some slot ∧ slot.formula = none ∧ slot.introduced = none := by
  obtain ⟨n, hn, hcontent⟩ := Tableau.exists_node?_of_mem_spots hnodup hp
  refine ⟨.ofNode n, by rw [h.slot?_eq, hn, Option.map_some], ?_⟩
  rw [Slot.ofNode_of_goal (hcontent.trans hgoal)]
  exact ⟨rfl, rfl⟩

/-! ### The way up -/

theorem parent?_of_mem_nodes (h : a.Holds t) (hnodup : t.ids.Nodup) (hn : n ∈ t.nodes) :
    a.parent? n.id = n.parent := by
  rw [parent?, h.slot?_of_mem_nodes hnodup hn]
  rfl

theorem parent?_eq_none (h : a.Holds t) (hid : id ∉ t.ids) : a.parent? id = none := by
  rw [parent?, h.slot?_eq_none hid]
  rfl

/-- Numbers go down on the way up, so a bound above the number of a node is never met. -/
theorem climb_eq {found : List NodeId} {m : Nat} (h : a.Holds t) (hformed : t.WellFormed)
    (hclimbs : t.Climbs id found) (hm : id < m) : a.climb m id = found := by
  have hnodup := hformed.numbered.nodup
  induction hclimbs generalizing m with
  | done hn hparent =>
    cases m with
    | zero => rfl
    | succ m => rw [climb, h.parent?_of_mem_nodes hnodup hn, hparent]
  | up hn hparent hrest ih =>
    have hlt := hformed.parent_lt hn hparent
    obtain ⟨m, rfl⟩ := Nat.exists_eq_add_one_of_ne_zero (Nat.ne_zero_of_lt hm)
    rw [climb, h.parent?_of_mem_nodes hnodup hn, hparent]
    exact congrArg _ (ih (Nat.lt_of_lt_of_le hlt (Nat.le_of_lt_succ hm)))

theorem climbs_of_climbs {found : List NodeId} (h : a.Holds t) (hnodup : t.ids.Nodup)
    (hclimbs : t.Climbs id found) : a.Climbs id found := by
  induction hclimbs with
  | done hn hparent => exact .done ((h.parent?_of_mem_nodes hnodup hn).trans hparent)
  | up hn hparent _ ih => exact .up ((h.parent?_of_mem_nodes hnodup hn).trans hparent) ih

theorem ancestors_eq (h : a.Holds t) (hformed : t.WellFormed) (id : NodeId) :
    a.ancestors id = t.ancestors id := by
  by_cases hid : id ∈ t.ids
  · have hlt := hformed.numbered.mem_ids_iff.mp hid
    rw [ancestors, h.length_eq hformed.numbered]
    exact h.climb_eq hformed (hformed.walksAgree.climbs id hid) hlt
  · rw [Tableau.ancestors_eq_nil (Tableau.spot?_eq_none hid), ancestors]
    cases a.slots.length with
    | zero => rfl
    | succ m => rw [climb, h.parent?_eq_none hid]

/-- The walk up ends by itself. -/
theorem climbs (h : a.Holds t) (hformed : t.WellFormed) (id : NodeId) :
    a.Climbs id (a.ancestors id) := by
  rw [h.ancestors_eq hformed]
  by_cases hid : id ∈ t.ids
  · exact h.climbs_of_climbs hformed.numbered.nodup (hformed.walksAgree.climbs id hid)
  · rw [Tableau.ancestors_eq_nil (Tableau.spot?_eq_none hid)]
    exact .done (h.parent?_eq_none hid)

theorem isAncestor_eq (h : a.Holds t) (hformed : t.WellFormed) (k id : NodeId) :
    a.isAncestor k id = t.isAncestor k id := by
  rw [isAncestor, h.ancestors_eq hformed, Tableau.isAncestor]

theorem commonAncestor?_eq (h : a.Holds t) (hformed : t.WellFormed) (x y : NodeId) :
    a.commonAncestor? x y = t.commonAncestor? x y := by
  rw [commonAncestor?, branch, branch, h.ancestors_eq hformed, h.ancestors_eq hformed,
    Tableau.commonAncestor?]

theorem branch_of_mem_spots {p : Spot} (h : a.Holds t) (hformed : t.WellFormed) (hp : p ∈ t.spots) :
    a.branch p.id = p.id :: p.above.map Entry.id := by
  rw [branch, h.ancestors_eq hformed, Tableau.ancestors_of_mem_spots hformed.numbered.nodup hp]

theorem branch_of_not_mem (h : a.Holds t) (hformed : t.WellFormed) (hid : id ∉ t.ids) :
    a.branch id = [id] := by
  rw [branch, h.ancestors_eq hformed, Tableau.ancestors_eq_nil (Tableau.spot?_eq_none hid)]

/-- What is found on the way up, where a goal is passed over. -/
theorem filterMap_branch {α : Type} {f : NodeId → Option α} {g : Entry → Option α} {p : Spot}
    (h : a.Holds t) (hformed : t.WellFormed) (hp : p ∈ t.spots)
    (hgoal : ∀ closing, p.content = .goal closing → f p.id = none)
    (hentry : ∀ e upper, ⟨e.id, .entry e, upper⟩ ∈ t.spots → f e.id = g e) :
    (a.branch p.id).filterMap f = p.branch.filterMap g := by
  have habove : (p.above.map Entry.id).filterMap f = p.above.filterMap g := by
    rw [List.filterMap_map]
    refine List.filterMap_congr fun e he => ?_
    obtain ⟨upper, hspot⟩ := Tableau.exists_spots_of_mem_above hp he
    exact hentry e upper hspot
  rw [h.branch_of_mem_spots hformed hp]
  obtain ⟨id, content, above⟩ := p
  cases content with
  | goal closing => rw [List.filterMap_cons_none (hgoal closing rfl), habove, Spot.branch]
  | entry e =>
    obtain rfl : id = e.id := Tableau.id_of_content_entry hp rfl
    rw [Spot.branch, List.filterMap_cons, List.filterMap_cons, hentry e above hp, habove]

theorem freeVars_eq (h : a.Holds t) (hformed : t.WellFormed) (id : NodeId) :
    a.freeVars id = t.freeVars id := by
  have hnodup := hformed.numbered.nodup
  by_cases hid : id ∈ t.ids
  · obtain ⟨p, hp, rfl⟩ := Tableau.exists_spot hid
    rw [freeVars, Tableau.freeVars, Tableau.branch?_of_mem_spots hnodup hp]
    refine h.filterMap_branch hformed hp (fun closing hgoal => ?_) fun e upper he => ?_
    · obtain ⟨slot, hslot, -, hintroduced⟩ := h.slot?_of_goal hnodup hp hgoal
      rw [hslot, Option.bind_some, hintroduced]
    · obtain ⟨slot, hslot, -, -, hintroduced, -⟩ := h.slot?_of_entry hnodup he
      rw [hslot, Option.bind_some, hintroduced]
  · rw [freeVars, h.branch_of_not_mem hformed hid, Tableau.freeVars, Tableau.branch?_eq_none hid]
    simp [h.slot?_eq_none hid]

/-- The nearest formula is that of the nearest entry. -/
theorem nearestFormula?_eq (h : a.Holds t) (hformed : t.WellFormed) (id : NodeId) :
    a.nearestFormula? id = (t.nearest? id).map Entry.id := by
  have hnodup := hformed.numbered.nodup
  by_cases hid : id ∈ t.ids
  · obtain ⟨p, hp, rfl⟩ := Tableau.exists_spot hid
    have hfound := h.filterMap_branch (g := fun e => some e.id)
      (f := Option.guard fun k => (a.slot? k).any (·.formula.isSome)) hformed hp
      (fun closing hgoal => ?_) fun e upper he => ?_
    · rw [nearestFormula?, ← List.head?_filter, ← List.filterMap_eq_filter, hfound,
        List.filterMap_eq_map', List.head?_map, Tableau.nearest?,
        Tableau.branch?_of_mem_spots hnodup hp, Option.bind_some]
    · obtain ⟨slot, hslot, hformula, -⟩ := h.slot?_of_goal hnodup hp hgoal
      simp [Option.guard, hslot, hformula]
    · obtain ⟨slot, hslot, -, hformula, -⟩ := h.slot?_of_entry hnodup he
      simp [Option.guard, hslot, hformula]
  · rw [nearestFormula?, h.branch_of_not_mem hformed hid, Tableau.nearest?,
      Tableau.branch?_eq_none hid]
    simp [h.slot?_eq_none hid]

theorem isExpandedOn_eq (h : a.Holds t) (hformed : t.WellFormed) (source goal : NodeId) :
    a.isExpandedOn source goal = t.isExpandedOn source goal := by
  have hnodup := hformed.numbered.nodup
  rw [isExpandedOn, h.ancestors_eq hformed, Tableau.isExpandedOn, Tableau.ancestors,
    List.takeWhile_map, List.any_map]
  rw [Bool.eq_iff_iff, List.any_eq_true, List.any_eq_true]
  refine exists_congr fun e => and_congr_right fun he => ?_
  obtain ⟨p, hp, hmem⟩ : ∃ p ∈ t.spots, e ∈ p.above := by
    have he := (List.takeWhile_sublist _).subset he
    rw [Tableau.lineage?_eq] at he
    cases hspot : t.spot? goal with
    | none => simp [hspot] at he
    | some p => exact ⟨p, (Tableau.mem_of_spot?_eq_some hspot).1, by simpa [hspot] using he⟩
  obtain ⟨upper, hspot⟩ := Tableau.exists_spots_of_mem_above hp hmem
  obtain ⟨slot, hslot, -, -, -, horigin⟩ := h.slot?_of_entry hnodup hspot
  rw [Function.comp_apply, hslot, Option.bind_some, horigin]

/-! ### The way down -/

/-- A walk down through the tableau takes no more steps than it finds nodes. -/
theorem visit_eq {stack found : List NodeId} {m : Nat} (h : a.Holds t) (hnodup : t.ids.Nodup)
    (hvisits : t.Visits stack found) (hm : found.length ≤ m) : a.visit m stack = found := by
  induction hvisits generalizing m with
  | done => cases m <;> rfl
  | visit hn _ ih =>
    obtain ⟨m, rfl⟩ := Nat.exists_eq_add_one_of_ne_zero (Nat.ne_zero_of_lt hm)
    rw [visit, h.slot?_of_mem_nodes hnodup hn]
    exact congrArg _ (ih (Nat.le_of_succ_le_succ hm))

theorem visits_of_visits {stack found : List NodeId} (h : a.Holds t) (hnodup : t.ids.Nodup)
    (hvisits : t.Visits stack found) : a.Visits stack found := by
  induction hvisits with
  | done => exact .done
  | visit hn _ ih => exact .visit (h.slot?_of_mem_nodes hnodup hn) ih

theorem descendants_eq_nil (hid : id ∉ t.ids) : t.descendants id = [] := by
  rw [Tableau.descendants, Tableau.subtree?_eq_none hid]
  rfl

theorem descendants_eq (h : a.Holds t) (hformed : t.WellFormed) (id : NodeId) :
    a.descendants id = t.descendants id := by
  by_cases hid : id ∈ t.ids
  · rw [descendants, h.length_eq hformed.numbered]
    refine h.visit_eq hformed.numbered.nodup (hformed.walksAgree.visits id hid) ?_
    exact (Tableau.infix_ids_descendants hid).length_le
  · rw [descendants_eq_nil hid, descendants]
    rcases a.slots.length with _ | _ | m
    · rfl
    · rw [visit, h.slot?_eq_none hid]
      rfl
    · rw [visit, h.slot?_eq_none hid]
      rfl

/-- The walk down ends by itself. -/
theorem visits (h : a.Holds t) (hformed : t.WellFormed) (id : NodeId) :
    a.Visits [id] (a.descendants id) := by
  rw [h.descendants_eq hformed]
  by_cases hid : id ∈ t.ids
  · exact h.visits_of_visits hformed.numbered.nodup (hformed.walksAgree.visits id hid)
  · rw [descendants_eq_nil hid]
    exact .skip (h.slot?_eq_none hid) .done

theorem openGoalsBelow_eq (h : a.Holds t) (hformed : t.WellFormed) (id : NodeId) :
    a.openGoalsBelow id = t.openGoalsBelow id := by
  rw [openGoalsBelow, h.descendants_eq hformed,
    Tableau.openGoalsBelow_eq_filter_descendants hformed.numbered.nodup]
  refine List.filter_congr fun c _ => ?_
  rw [h.slot?_eq, Option.any_map]
  rfl

theorem openGoals_eq (h : a.Holds t) (hformed : t.WellFormed) : a.openGoals = t.openGoals := by
  rw [openGoals, h.root_eq, h.openGoalsBelow_eq hformed, hformed.openGoalsBelow_root]

theorem goals_eq (h : a.Holds t) (hformed : t.WellFormed) : a.goals = t.goals := by
  rw [goals, h.root_eq, h.descendants_eq hformed, hformed.goals_eq_filter_descendants]
  refine List.filter_congr fun c _ => ?_
  rw [h.slot?_eq, Option.any_map]
  rfl

end Holds

end Arena

end SignedTableaux
