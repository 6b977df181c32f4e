import SignedTableaux.Proofs.Session.ClosedGoals
import SignedTableaux.Proofs.Session.Refusals
import SignedTableaux.Proofs.Tableau.Frame

/-!
# When a closure is accepted, and what it does

Two nodes stand for two entries. A closure with them is accepted just if the entries have opposite
signs and equal instances, and an open goal is left below their nearest common ancestor. It closes
all open goals there, and puts the names in the images of the substitution out of use. Nothing else
changes.

The goals are found by going down from the ancestor, while a goal is said to be below the ancestor
if it is met on the way up. Both are the same in a tableau that a session can reach.

## Main definitions

* `Session.Closable` — what a closure needs
* `Session.ClosedBelow` — what a closure reports and leaves behind

## Main results

* `Session.closureAt_eq_ok_iff` — which closures are accepted, and which goals they are to close
* `Session.Closable.closedBelow` — what an accepted closure does
* `Session.closable_iff_closedBelow` — both, after every run
-/

namespace SignedTableaux.Session

variable {s : Session} {a b k : NodeId} {σ : Substitution} {l r : Entry}

/-- Whether the nodes `a` and `b` can be used for a closure by `σ`: they stand for the entries `l`
and `r`, which have opposite signs and equal instances, and an open goal has the nearest common
ancestor `k` of the entries above it. -/
structure Closable (s : Session) (σ : Substitution) (a b : NodeId) (l r : Entry) (k : NodeId) :
    Prop where
  left_mem : a ∈ s.tableau.ids
  right_mem : b ∈ s.tableau.ids
  left_eq : s.tableau.nearest? a = some l
  right_eq : s.tableau.nearest? b = some r
  sign_ne : l.signed.sign ≠ r.signed.sign
  apply_eq : σ.apply l.signed.formula = σ.apply r.signed.formula
  ancestor_eq : s.tableau.commonAncestor? l.id r.id = some k
  exists_goal : ∃ g ∈ s.tableau.openGoals, s.tableau.isAncestor k g

/-- Whether the session `s'` and the report `c` are what a closure by `σ` below the node `k` makes
of the session `s`. -/
structure ClosedBelow (s : Session) (σ : Substitution) (k : NodeId) (c : Closure) (s' : Session) :
    Prop where
  ancestor_eq : c.ancestor = k
  /-- The open goals with `k` above them, from left to right. -/
  closed_eq : c.closed = s.tableau.openGoals.filter (s.tableau.isAncestor k)
  substitution_eq : c.substitution = σ
  /-- Just these goals are closed by `σ`, and no node changes otherwise. -/
  nodes_eq : s'.tableau.nodes =
    s.tableau.nodes.map fun n => if n.id ∈ c.closed then n.stamp σ else n
  /-- The names in the images of `σ` are out of use. -/
  mem_taken_iff : ∀ x, x ∈ s'.names.taken ↔
    x ∈ s.names.taken ∨ ∃ y image, σ.get? y = some image ∧ x ∈ image.symbols
  issued_eq : s'.names.issued = s.names.issued
  counter_eq : s'.names.counter = s.names.counter

/-! ### One closure -/

theorem mem_ids_of_node {n : Node} (h : s.node a = .ok n) : a ∈ s.tableau.ids := by
  obtain ⟨hn, rfl⟩ := Tableau.mem_nodes_of_node? (orFail_eq_ok.mp h)
  exact Tableau.mem_ids_of_mem_nodesFrom hn

theorem mem_ids_of_entryFor (h : s.entryFor a = .ok l) : a ∈ s.tableau.ids := by
  obtain ⟨n, hn, -⟩ := bind_eq_ok.mp h
  exact mem_ids_of_node hn

/-- The nearest common ancestor of two entries is an entry, so that the goals below it have it above
them. -/
theorem openGoalsBelow_ancestor (hnumbered : s.tableau.WellNumbered) (hl : s.entryFor a = .ok l)
    (hk : s.tableau.commonAncestor? l.id r.id = some k) :
    s.tableau.openGoalsBelow k = s.tableau.openGoals.filter (s.tableau.isAncestor k) := by
  obtain ⟨above, hp⟩ := exists_mem_spots_of_entryFor hl
  have hmem := (hnumbered.commonAncestor?_eq_some_iff.mp hk).1.1
  have hentry := Tableau.mem_entryIds_of_mem_cons_ancestors hnumbered.nodup hp hmem
  exact Tableau.openGoalsBelow_eq_filter hnumbered.nodup
    (Tableau.not_mem_goals_of_mem_entryIds hnumbered.nodup hentry)

/-- A closure is accepted just if it has all it needs, and then it is to close the open goals below
the common ancestor. -/
theorem closureAt_eq_ok_iff {result : NodeId × List NodeId} (hnumbered : s.tableau.WellNumbered) :
    s.closureAt a b σ = .ok result ↔
      ∃ l r k, s.Closable σ a b l r k ∧ result = (k, s.tableau.openGoalsBelow k) := by
  have hnodup := hnumbered.nodup
  simp only [closureAt, bind_eq_ok, orFail_eq_ok, require_eq_ok, mapError_eq_ok, pure, Except.pure,
    Except.ok.injEq, exists_const]
  have hgoals {l r : Entry} {k : NodeId} (hl : s.entryFor a = .ok l)
      (hk : s.tableau.commonAncestor? l.id r.id = some k) :
      s.tableau.openGoalsBelow k ≠ [] ↔ ∃ g ∈ s.tableau.openGoals, s.tableau.isAncestor k g := by
    simp [openGoalsBelow_ancestor hnumbered hl hk]
  constructor
  · rintro ⟨l, hl, r, hr, hsign, k, hk, u, hu, hne, rfl⟩
    exact ⟨l, r, k, ⟨mem_ids_of_entryFor hl, mem_ids_of_entryFor hr,
      (entryFor_eq_ok_iff hnodup).mp hl, (entryFor_eq_ok_iff hnodup).mp hr, hsign,
      (Substitution.unify_eq_ok_iff.mp hu).2, hk, (hgoals hl hk).mp hne⟩, rfl⟩
  · rintro ⟨l, r, k, h, rfl⟩
    have hl := (entryFor_eq_ok_iff hnodup).mpr h.left_eq
    have hr := (entryFor_eq_ok_iff hnodup).mpr h.right_eq
    exact ⟨l, hl, r, hr, h.sign_ne, k, h.ancestor_eq, _,
      Substitution.unify_eq_ok_iff.mpr ⟨rfl, h.apply_eq⟩,
      (hgoals hl h.ancestor_eq).mpr h.exists_goal, rfl⟩

theorem closeWith_of_closureAt {goals : List NodeId} (h : s.closureAt a b σ = .ok (k, goals)) :
    s.closeWith a b σ =
      (.ok ⟨k, goals, σ⟩, ⟨s.tableau.closeBelow k σ, s.names.reserve σ.imageSymbols⟩) := by
  rw [closeWith, h]

/-- A closure that has all it needs is accepted, and closes just the open goals below the
ancestor. -/
theorem Closable.closedBelow (h : s.Closable σ a b l r k) (hnumbered : s.tableau.WellNumbered) :
    ∃ c, (s.closeWith a b σ).1 = .ok c ∧ s.ClosedBelow σ k c (s.closeWith a b σ).2 := by
  have hclosure := (closureAt_eq_ok_iff hnumbered).mpr ⟨l, r, k, h, rfl⟩
  have hbelow := openGoalsBelow_ancestor hnumbered
    ((entryFor_eq_ok_iff hnumbered.nodup).mpr h.left_eq) h.ancestor_eq
  rw [closeWith_of_closureAt hclosure]
  refine ⟨_, rfl, rfl, hbelow, rfl, Tableau.nodes_closeBelow hnumbered.nodup k σ,
    fun x => ?_, rfl, rfl⟩
  rw [NameSupply.mem_taken_reserve, Substitution.mem_imageSymbols, or_comm]

theorem exists_closable {c : Closure} (hnumbered : s.tableau.WellNumbered)
    (h : (s.closeWith a b σ).1 = .ok c) : ∃ l r k, s.Closable σ a b l r k := by
  cases hclosure : s.closureAt a b σ with
  | error e => simp [closeWith, hclosure] at h
  | ok result =>
    obtain ⟨l, r, k, hclosable, -⟩ := (closureAt_eq_ok_iff hnumbered).mp hclosure
    exact ⟨l, r, k, hclosable⟩

/-! ### Runs -/

/-- After every run, a closure with two nodes is accepted just if the entries that they stand for
have opposite signs and equal instances and an open goal has their nearest common ancestor above it.
It then closes just the open goals that have, and changes nothing else but the names in use. -/
theorem closable_iff_closedBelow (φ : Term) (rs : List Request) (a b : NodeId) (σ : Substitution) :
    ((∃ c, (((ofFormula φ).after rs).closeWith a b σ).1 = .ok c) ↔
      ∃ l r k, ((ofFormula φ).after rs).Closable σ a b l r k) ∧
      ∀ l r k, ((ofFormula φ).after rs).Closable σ a b l r k →
        ∃ c, (((ofFormula φ).after rs).closeWith a b σ).1 = .ok c ∧
          ((ofFormula φ).after rs).ClosedBelow σ k c
            (((ofFormula φ).after rs).closeWith a b σ).2 := by
  have hnumbered := wellNumbered_after φ rs
  refine ⟨⟨fun ⟨c, hc⟩ => exists_closable hnumbered hc, fun ⟨l, r, k, h⟩ => ?_⟩,
    fun l r k h => h.closedBelow hnumbered⟩
  obtain ⟨c, hc, -⟩ := h.closedBelow hnumbered
  exact ⟨c, hc⟩

/-- The formula `(P -> P) & (Q -> Q)`. -/
def twoIdentities : Term :=
  .binary .and (.binary .implies (.pred "P" []) (.pred "P" []))
    (.binary .implies (.pred "Q" []) (.pred "Q" []))

/-- The first of two branches is closed, and the goal of the other one stays open. -/
theorem closedBelow_twoIdentities :
    let s := (ofFormula twoIdentities).after [.applyRule .beta 1 0, .applyRule .alpha 3 1]
    let σ := Substitution.single "X" (.fn "a" [])
    s.tableau.openGoals = [6, 4] ∧ ∃ l r c, s.Closable σ 6 3 l r 3 ∧ c.closed = [6] ∧
      s.ClosedBelow σ 3 c (s.closeWith 6 3 σ).2 ∧
      (s.closeWith 6 3 σ).2.tableau.openGoals = [4] := by
  intro s σ
  have haccepted : (s.closeWith 6 3 σ).1 = .ok ⟨3, [6], σ⟩ := by decide +kernel
  obtain ⟨hiff, hclosed⟩ :=
    closable_iff_closedBelow twoIdentities [.applyRule .beta 1 0, .applyRule .alpha 3 1] 6 3 σ
  obtain ⟨l, r, k, h⟩ := hiff.mp ⟨_, haccepted⟩
  obtain ⟨c, hc, hbelow⟩ := hclosed l r k h
  obtain rfl : c = ⟨3, [6], σ⟩ := Except.ok.inj (hc.symm.trans haccepted)
  obtain rfl : 3 = k := hbelow.ancestor_eq
  exact ⟨by decide +kernel, l, r, _, h, rfl, hbelow, by decide +kernel⟩

end SignedTableaux.Session
