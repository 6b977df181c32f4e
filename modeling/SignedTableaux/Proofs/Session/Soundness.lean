import SignedTableaux.Proofs.Session.Satisfiability

/-!
# Proved formulas

A closure is about two entries, and it closes all open goals below their nearest common ancestor.
If the two are on different branches, it closes goals that have only one of them above. Two closures
may also give different values to one variable, although the variable stands for the same element
wherever it occurs. So a session may prove a formula that is not true in every structure.

Apart from these two cases sessions are sound: if every closure is about entries above all goals
that it closes, and one substitution serves for all closures, then what is proved is true in every
structure.

## Main definitions

* `Clash` — what a closure is about
* `Session.clashes` — the closures of a run
* `Clash.OnBranch`, `Clash.UnifiedBy` — the two conditions
* `Session.Refuted` — every closed goal has a contradiction above it

## Main results

* `Session.exists_isProved_not_isTrueIn` — neither condition can be left out
* `Session.refuted_after` — closed goals are refuted, after every run with both conditions
* `Session.isTrueIn_of_isProved` — soundness of runs with both conditions
-/

namespace SignedTableaux

universe u

/-- What a closure is about: the tableau before, two entries, and the goals that are closed. -/
structure Clash where
  tableau : Tableau
  left : Entry
  right : Entry
  closed : List NodeId

namespace Clash

/-- Whether both entries are above every goal that is closed. -/
def OnBranch (c : Clash) : Prop :=
  ∀ g ∈ c.closed, c.tableau.isAncestor c.left.id g ∧ c.tableau.isAncestor c.right.id g

/-- Whether a substitution makes the formulas of both entries equal. -/
def UnifiedBy (c : Clash) (τ : Substitution) : Prop :=
  τ.apply c.left.signed.formula = τ.apply c.right.signed.formula

instance (c : Clash) : Decidable c.OnBranch :=
  inferInstanceAs (Decidable (∀ g ∈ c.closed,
    c.tableau.isAncestor c.left.id g ∧ c.tableau.isAncestor c.right.id g))

instance (c : Clash) (τ : Substitution) : Decidable (c.UnifiedBy τ) :=
  inferInstanceAs (Decidable (τ.apply c.left.signed.formula = τ.apply c.right.signed.formula))

end Clash

namespace Session

variable {s : Session} {φ : Term} {τ : Substitution}

/-- What a request brings together, if it is an accepted closure. -/
def clash? (s : Session) (r : Request) : Option Clash :=
  match (s.perform r).1, r.pair? with
  | .ok (.closure closure), some (a, b) =>
    match s.entryFor a, s.entryFor b with
    | .ok left, .ok right => some ⟨s.tableau, left, right, closure.closed⟩
    | _, _ => none
  | _, _ => none

/-- The closures of a run. -/
def clashes (s : Session) : List Request → List Clash
  | [] => []
  | r :: rs => (s.clash? r).toList ++ (s.perform r).2.clashes rs

theorem clashes_concat (s : Session) (rs : List Request) (r : Request) :
    s.clashes (rs ++ [r]) = s.clashes rs ++ ((s.after rs).clash? r).toList := by
  induction rs generalizing s with
  | nil => simp [clashes]
  | cons r' rs ih =>
    rw [List.cons_append, clashes, clashes, ih, List.append_assoc]
    rfl

/-- What an accepted closure brings together. -/
def Closing.clash (c : Closing s) : Clash :=
  ⟨s.tableau, c.left, c.right, s.tableau.openGoalsBelow c.ancestor⟩

theorem Closing.clash?_eq (c : Closing s) {r : Request} (hpair : r.pair? = some (c.a, c.b))
    (h : s.perform r = (.ok (.closure c.closure), c.session)) : s.clash? r = some c.clash := by
  unfold clash?
  rw [h, hpair]
  simp only [c.left_eq, c.right_eq]
  rfl

/-! ### Closed goals -/

/-- Whether every closed goal has entries above it that contradict each other under `τ`. -/
def Refuted (s : Session) (τ : Substitution) : Prop :=
  ∀ p ∈ s.tableau.spots, ∀ σ, p.content = .goal (some σ) →
    ∃ left ∈ p.above, ∃ right ∈ p.above, left.signed.sign ≠ right.signed.sign ∧
      τ.apply left.signed.formula = τ.apply right.signed.formula

theorem refuted_start (φ : Term) (τ : Substitution) : (ofFormula φ).Refuted τ := by
  intro p hp σ hclosed
  simp only [ofFormula, Tableau.start, Tableau.spots, Tableau.spotsFrom, List.mem_cons,
    List.not_mem_nil, or_false] at hp
  rcases hp with rfl | rfl
  · exact Content.noConfusion hclosed
  · simp at hclosed

/-- The new goals of a rule application are open. -/
theorem Growth.refuted (g : Growth s) (hnodup : s.tableau.ids.Nodup) (h : s.Refuted τ) :
    g.session.Refuted τ := by
  intro p hp σ hclosed
  rcases (g.mem_spots_iff hnodup).mp hp with ⟨hold, -⟩ | hnew
  · exact h p hold σ hclosed
  · rcases Tableau.content_of_mem_ofExpansion hnew with hopen | ⟨e, hentry, -⟩
    · simp [hopen] at hclosed
    · simp [hentry] at hclosed

/-- A closure that is about entries above all goals that it closes refutes these goals. -/
theorem Closing.refuted (c : Closing s) (hnodup : s.tableau.ids.Nodup)
    (hbranch : c.clash.OnBranch) (hunified : c.clash.UnifiedBy τ) (h : s.Refuted τ) :
    c.session.Refuted τ := by
  intro p hp σ hclosed
  obtain ⟨q, hq, rfl⟩ : ∃ q ∈ s.tableau.spots, q.closeBelow c.ancestor c.σ = p := by
    rw [session, Tableau.spots_closeBelow] at hp
    exact List.mem_map.mp hp
  rw [Spot.closeBelow_above]
  rw [Spot.closeBelow_content] at hclosed
  split at hclosed
  · next hnew =>
    obtain ⟨hl, hr⟩ := hbranch q.id (Tableau.mem_openGoalsBelow hnodup hq hnew.1 hnew.2)
    obtain ⟨_, hleft⟩ := exists_mem_spots_of_entryFor c.left_eq
    obtain ⟨_, hright⟩ := exists_mem_spots_of_entryFor c.right_eq
    exact ⟨c.left, Tableau.mem_above_of_isAncestor hnodup hq hleft hl,
      c.right, Tableau.mem_above_of_isAncestor hnodup hq hright hr, c.sign_ne, hunified⟩
  · exact h q hq σ hclosed

theorem refuted_after (φ : Term) (rs : List Request)
    (h : ∀ c ∈ (ofFormula φ).clashes rs, c.OnBranch ∧ c.UnifiedBy τ) :
    ((ofFormula φ).after rs).Refuted τ := by
  induction rs using List.reverseRecOn with
  | nil => exact refuted_start φ τ
  | append_singleton rs r ih =>
    rw [clashes_concat] at h
    have hrefuted := ih fun c hc => h c (List.mem_append_left _ hc)
    have hnodup := (wellNumbered_after φ rs).nodup
    rw [after_concat]
    rcases effect_after φ rs r with ⟨e, hr⟩ | ⟨g, -, hr⟩ | ⟨c, hpair, hr⟩
    · rw [hr]
      exact hrefuted
    · rw [hr]
      exact g.refuted hnodup hrefuted
    · obtain ⟨hbranch, hunified⟩ := h c.clash (by simp [c.clash?_eq hpair hr])
      rw [hr]
      exact c.refuted hnodup hbranch hunified hrefuted

/-! ### Soundness -/

/-- In a proved session every goal is closed. -/
theorem exists_closing_of_isProved {p : Spot} {closing : Option Substitution}
    (h : s.isProved) (hp : p ∈ s.tableau.spots) (hgoal : p.content = .goal closing) :
    ∃ σ, closing = some σ := by
  cases closing with
  | some σ => exact ⟨σ, rfl⟩
  | none =>
    have hopen : p.id ∈ s.tableau.openGoals :=
      (Tableau.mem_openGoals_iff []).mpr ⟨p, hp, hgoal, rfl⟩
    rw [List.isEmpty_iff.mp h] at hopen
    exact absurd hopen List.not_mem_nil

/-- A session in which all goals are closed and refuted is not satisfied in any structure: where
every variable has the value of its image, each goal has a falsehood above it. -/
theorem not_satisfiedIn_of_isProved {D : Type u} [Nonempty D] {M : Structure D}
    (hobject : ∀ x image, τ.get? x = some image → image.isFormula = false)
    (hfree : τ.CaptureFree φ) (h : s.Hygienic φ) (hrefuted : s.Refuted τ) (hproved : s.isProved) :
    ¬ s.SatisfiedIn M := by
  intro hsatisfied
  obtain ⟨d⟩ := ‹Nonempty D›
  obtain ⟨p, hp, ⟨closing, hgoal⟩, habove⟩ := hsatisfied (τ.assign M fun _ => d)
  obtain ⟨σ, rfl⟩ := exists_closing_of_isProved hproved hp hgoal
  obtain ⟨left, hleft, right, hright, hsign, heq⟩ := hrefuted p hp σ hgoal
  exact Substitution.not_holds_of_apply_eq hobject (hfree.mono (h.tidy_above hp hleft).bound)
    (hfree.mono (h.tidy_above hp hright).bound) hsign heq (habove left hleft) (habove right hright)

/-- Soundness. What a run proves is true in every structure, if every closure is about entries above
all goals that it closes, and one substitution of objects for variables serves for all closures. -/
theorem isTrueIn_of_isProved {text : String} {φ : Term} {s : Session}
    (hstart : Session.start text = .ok s) (hφ : Formula.parse text = .ok φ) (rs : List Request)
    (hproved : (s.after rs).isProved) (hbranch : ∀ c ∈ s.clashes rs, c.OnBranch)
    (τ : Substitution) (hobject : ∀ x image, τ.get? x = some image → image.isFormula = false)
    (hfree : τ.CaptureFree φ) (hunified : ∀ c ∈ s.clashes rs, c.UnifiedBy τ)
    {D : Type u} [Nonempty D] (M : Structure D) : φ.IsTrueIn M := by
  obtain rfl := ofFormula_eq_of_start hstart hφ
  have hclosed := Formula.closed_of_parse hφ
  have hrefuted := refuted_after φ rs fun c hc => ⟨hbranch c hc, hunified c hc⟩
  -- a structure where the formula is false would satisfy some goal
  by_contra hfalse
  obtain ⟨M', -, hsatisfied⟩ := exists_structure_after hclosed hfalse rs
  exact not_satisfiedIn_of_isProved hobject hfree (hygienic_after hclosed rs) hrefuted hproved
    hsatisfied

/-- The formula `(forall x. P(x)) -> P(a) & P(b)`. -/
def twoInstances : Term :=
  .binary .implies (.quantified .universal "x" (.pred "P" [.var "x"]))
    (.binary .and (.pred "P" [.fn "a" []]) (.pred "P" [.fn "b" []]))

/-- A proof of `twoInstances`: a variable for each branch, and a value for each variable. -/
def twoInstancesRun : List Request :=
  [.applyRule .alpha 1 0, .applyRule .beta 3 2, .applyRule .gamma 5 1, .applyRule .gamma 6 1,
    .close 5 3 "X_1/a", .close 6 4 "X_2/b"]

/-- The values of both variables. -/
def twoInstancesValues : Substitution :=
  (Substitution.single "X_1" (.fn "a" [])).insert "X_2" (.fn "b" [])

theorem isTrueIn_twoInstances :
    Session.start "(forall x. P(x)) -> P(a) & P(b)" = .ok (ofFormula twoInstances) ∧
      ((ofFormula twoInstances).after twoInstancesRun).isProved ∧
      (∀ c ∈ (ofFormula twoInstances).clashes twoInstancesRun,
        c.OnBranch ∧ c.UnifiedBy twoInstancesValues) ∧
      twoInstances.IsTrueIn
        (⟨fun f _ => f = "a", fun _ ds => ds = [true] ∨ ds = [false]⟩ : Structure Bool) := by
  have hstart : Session.start "(forall x. P(x)) -> P(a) & P(b)" = .ok (ofFormula twoInstances) := by
    decide +kernel
  have hproved : ((ofFormula twoInstances).after twoInstancesRun).isProved := by
    decide +kernel
  have hclashes : ∀ c ∈ (ofFormula twoInstances).clashes twoInstancesRun,
      c.OnBranch ∧ c.UnifiedBy twoInstancesValues := by
    decide +kernel
  have hconstant : ∀ b ∈ twoInstancesValues.bindings, b.2.isFormula = false ∧ b.2.freeVars = ∅ := by
    decide
  refine ⟨hstart, hproved, hclashes, isTrueIn_of_isProved hstart (by decide +kernel) _ hproved
    (fun c hc => (hclashes c hc).1) twoInstancesValues (fun x image himage => ?_)
    (fun z _ x image himage => ?_) (fun c hc => (hclashes c hc).2) _⟩
  · exact (hconstant (x, image) (Substitution.mem_bindings_iff.mpr himage)).1
  · rw [(hconstant (x, image) (Substitution.mem_bindings_iff.mpr himage)).2]
    exact NameSet.not_mem_empty z

/-! ### Unsoundness -/

/-- The formula `P -> P & Q`. -/
def joinedAtoms : Term :=
  .binary .implies (.pred "P" []) (.binary .and (.pred "P" []) (.pred "Q" []))

/-- The branch for `Q` is closed together with the branch for `P`. -/
def joinedAtomsRun : List Request :=
  [.applyRule .alpha 1 0, .applyRule .beta 3 2, .close 3 1 ""]

/-- The formula `(forall x. P(x) | Q(x)) -> P(a) | Q(b)`. -/
def twoConstants : Term :=
  .binary .implies
    (.quantified .universal "x" (.binary .or (.pred "P" [.var "x"]) (.pred "Q" [.var "x"])))
    (.binary .or (.pred "P" [.fn "a" []]) (.pred "Q" [.fn "b" []]))

/-- One variable stands for `a` on the left and for `b` on the right. -/
def twoConstantsRun : List Request :=
  [.applyRule .alpha 1 0, .applyRule .gamma 3 1, .applyRule .beta 4 3, .applyRule .alpha 6 2,
    .applyRule .alpha 7 2, .close 4 6 "X_1/a", .close 5 10 "X_1/b"]

/-- Neither condition of soundness can be left out. In the first run the closure is about entries on
different branches, in the second run two closures give different values to one variable. -/
theorem exists_isProved_not_isTrueIn :
    (Session.start "P -> P & Q" = .ok (ofFormula joinedAtoms) ∧
      Formula.parse "P -> P & Q" = .ok joinedAtoms ∧
      ((ofFormula joinedAtoms).after joinedAtomsRun).isProved ∧
      (∀ c ∈ (ofFormula joinedAtoms).clashes joinedAtomsRun, c.UnifiedBy ∅) ∧
      ∃ M : Structure Bool, ¬ joinedAtoms.IsTrueIn M) ∧
    (Session.start "(forall x. P(x) | Q(x)) -> P(a) | Q(b)" = .ok (ofFormula twoConstants) ∧
      Formula.parse "(forall x. P(x) | Q(x)) -> P(a) | Q(b)" = .ok twoConstants ∧
      ((ofFormula twoConstants).after twoConstantsRun).isProved ∧
      (∀ c ∈ (ofFormula twoConstants).clashes twoConstantsRun, c.OnBranch) ∧
      ∃ M : Structure Bool, ¬ twoConstants.IsTrueIn M) := by
  refine ⟨⟨by decide +kernel, by decide +kernel, by decide +kernel, by decide +kernel,
    ⟨fun _ _ => true, fun p _ => p = "P"⟩, fun htrue => ?_⟩, ⟨by decide +kernel, by decide +kernel,
    by decide +kernel, by decide +kernel, ⟨fun f _ => f = "a", fun p ds => ds = [decide (p = "Q")]⟩,
    fun htrue => ?_⟩⟩
  · have h := htrue fun _ => true
    simp [joinedAtoms, Term.holds] at h
  · have h := htrue fun _ => true
    simp [twoConstants, Term.holds] at h

end Session

end SignedTableaux
