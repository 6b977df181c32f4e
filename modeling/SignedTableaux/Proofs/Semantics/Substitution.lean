import SignedTableaux.Proofs.Semantics.Structure
import SignedTableaux.Proofs.Substitution.CaptureFree

/-!
# Substitution and truth

A substitution whose images have no variable that is bound in a formula renames no binder there.
Replacing a variable by an object then changes the truth of the formula as giving the variable the
value of the object does. A substitution of several variables skips a quantifier that binds one of
them, so it has no such meaning in general; but whether a formula is true when every variable has
the value of its image depends on the instance alone.

## Main definitions

* `Substitution.assign` — every variable has the value of its image
* `Substitution.instanceHolds` — the truth of a formula, read off its instance

## Main results

* `Term.holds_substitute` — replacing one variable
* `Substitution.holds_assign_iff` — the truth of a formula, by its instance
* `Substitution.not_holds_of_apply_eq` — a common instance makes opposite signs contradictory
-/

namespace SignedTableaux

universe u

variable {D : Type u} [Nonempty D] {M : Structure D} {ρ : String → D}

namespace Substitution

variable {σ : Substitution}

/-! ### Values -/

/-- The assignment that gives every variable the value of its image. -/
noncomputable def assign (σ : Substitution) (M : Structure D) (ρ : String → D) : String → D :=
  fun x => (σ.apply (.var x)).value M ρ

theorem value_apply (σ : Substitution) (t : Term) :
    (σ.apply t).value M ρ = t.value M (σ.assign M ρ) := by
  induction t with
  | app k f args ih =>
    cases k with
    | predicate =>
      rw [apply_app, Term.value_of_isFormula rfl, Term.value_of_isFormula rfl]
    | function =>
      rw [apply_app, Term.value_fn, Term.value_fn, List.map_map]
      congr 1
      exact List.map_congr_left ih
  | var x => rw [Term.value_var, assign]
  | not t ih => rw [apply_not, Term.value_of_isFormula rfl, Term.value_of_isFormula rfl]
  | binary c l r ihl ihr =>
    rw [apply_binary, Term.value_of_isFormula rfl, Term.value_of_isFormula rfl]
  | quantified q z body ih =>
    have hformula : (σ.apply (.quantified q z body)).isFormula := by
      rw [apply]
      split
      · rfl
      · split <;> rfl
    rw [Term.value_of_isFormula hformula, Term.value_of_isFormula rfl]

theorem assign_single (x : String) (r : Term) :
    (single x r).assign M ρ = Function.update ρ x (r.value M ρ) := by
  funext y
  by_cases h : y = x
  · simp [assign, get?_single, h]
  · simp [assign, get?_single, h]

/-- Below a binder that no image mentions. -/
theorem assign_update {z : String} {d : D} (hz : z ∉ σ.domain)
    (hfree : ∀ x image, σ.get? x = some image → z ∉ image.freeVars) :
    σ.assign M (Function.update ρ z d) = Function.update (σ.assign M ρ) z d := by
  funext x
  by_cases hxz : x = z
  · subst hxz
    simp [assign, get?_eq_none hz]
  · rw [Function.update_of_ne hxz, assign, assign]
    refine Term.value_congr (fun _ _ => rfl) fun y hy => Function.update_of_ne ?_ _ _
    rintro rfl
    rw [apply_var] at hy
    cases himage : σ.get? x with
    | none =>
      rw [himage, Option.getD_none, Term.mem_freeVars_var] at hy
      exact hxz hy.symm
    | some image =>
      rw [himage, Option.getD_some] at hy
      exact hfree x image himage hy

end Substitution

/-! ### One variable -/

/-- Replacing a variable by an object is giving it the value of the object. -/
theorem Term.holds_substitute {t r : Term} {x : String} (hr : r.isFormula = false)
    (hfree : (Substitution.single x r).CaptureFree t) :
    (t.substitute x r).holds M ρ ↔ t.holds M (Function.update ρ x (r.value M ρ)) := by
  refine substitute_induction
    (P := fun t u => ∀ ρ, u.holds M ρ ↔ t.holds M (Function.update ρ x (r.value M ρ)))
    ?app ?replaced ?kept ?not ?binary ?skipped ?quantified hfree ρ
  case app =>
    intro k p args _ ρ
    cases k with
    | predicate =>
      have hargs : (args.map fun arg => arg.substitute x r).map (value M ρ) =
          args.map (value M (Function.update ρ x (r.value M ρ))) := by
        rw [List.map_map, ← Substitution.assign_single]
        exact List.map_congr_left fun arg _ => Substitution.value_apply _ arg
      simp only [holds, hargs]
    | function => simp only [holds]
  case replaced =>
    intro ρ
    exact iff_of_false (not_holds_of_isFormula_eq_false hr) (not_holds_of_isFormula_eq_false rfl)
  case kept =>
    intro z _ ρ
    simp only [holds]
  case not =>
    intro t ih ρ
    simp only [holds, ih]
  case binary =>
    intro c l s ihl ihs ρ
    cases c <;> simp only [holds, ihl, ihs]
  case skipped =>
    intro q body ρ
    exact (holds_update_of_not_mem (by simp)).symm
  case quantified =>
    intro q z body hz hfresh ih ρ
    have hvalue (d : D) : r.value M (Function.update ρ z d) = r.value M ρ := by
      refine value_congr (fun _ _ => rfl) fun y hy => Function.update_of_ne ?_ _ _
      rintro rfl
      exact hfresh hy
    have hbody (d : D) : (body.substitute x r).holds M (Function.update ρ z d) ↔
        body.holds M (Function.update (Function.update ρ x (r.value M ρ)) z d) := by
      rw [ih, hvalue, Function.update_comm hz]
    cases q <;> simp only [holds, hbody]

theorem Signed.holds_substitute_iff {sign : Sign} {t r : Term} {x : String}
    (hr : r.isFormula = false) (hfree : (Substitution.single x r).CaptureFree t) :
    Signed.holds M ρ ⟨sign, t.substitute x r⟩ ↔
      Signed.holds M (Function.update ρ x (r.value M ρ)) ⟨sign, t⟩ := by
  cases sign
  · exact Term.holds_substitute hr hfree
  · exact not_congr (Term.holds_substitute hr hfree)

/-! ### Several variables -/

namespace Substitution

/-- The truth of a formula when every variable has the value of its image, read off the instance of
the formula. A quantifier that binds a variable of the substitution is its own instance. -/
def instanceHolds (σ : Substitution) (M : Structure D) : (String → D) → Term → Prop
  | ρ, .pred p args => M.pred p (args.map (Term.value M ρ))
  | _, .fn .. | _, .var _ => False
  | ρ, .not t => ¬ σ.instanceHolds M ρ t
  | ρ, .binary .and l r => σ.instanceHolds M ρ l ∧ σ.instanceHolds M ρ r
  | ρ, .binary .or l r => σ.instanceHolds M ρ l ∨ σ.instanceHolds M ρ r
  | ρ, .binary .implies l r => σ.instanceHolds M ρ l → σ.instanceHolds M ρ r
  | ρ, .quantified .universal z body =>
    if z ∈ σ.domain then Term.holds M (σ.assign M ρ) (.quantified .universal z body)
    else ∀ d, σ.instanceHolds M (Function.update ρ z d) body
  | ρ, .quantified .existential z body =>
    if z ∈ σ.domain then Term.holds M (σ.assign M ρ) (.quantified .existential z body)
    else ∃ d, σ.instanceHolds M (Function.update ρ z d) body

theorem not_instanceHolds {σ : Substitution} {t : Term} (h : t.isFormula = false) :
    ¬ σ.instanceHolds M ρ t := by
  cases t with
  | app k f args =>
    cases k with
    | predicate => simp [Term.isFormula] at h
    | function => simp [instanceHolds]
  | var x => simp [instanceHolds]
  | not t => simp [Term.isFormula] at h
  | binary c l r => simp [Term.isFormula] at h
  | quantified q x body => simp [Term.isFormula] at h

/-- The truth of a formula, when every variable has the value of its image, depends on the instance
of the formula alone. -/
theorem holds_assign_iff {σ : Substitution} {t : Term}
    (hobject : ∀ x image, σ.get? x = some image → image.isFormula = false)
    (hfree : σ.CaptureFree t) :
    t.holds M (σ.assign M ρ) ↔ σ.instanceHolds M ρ (σ.apply t) := by
  induction t generalizing ρ with
  | app k p args ih =>
    rw [apply_app]
    cases k with
    | predicate =>
      have hargs : (args.map σ.apply).map (Term.value M ρ) =
          args.map (Term.value M (σ.assign M ρ)) := by
        rw [List.map_map]
        exact List.map_congr_left fun arg _ => value_apply σ arg
      simp only [Term.holds, instanceHolds, hargs]
    | function => simp only [Term.holds, instanceHolds]
  | var x =>
    have himage : (σ.apply (.var x)).isFormula = false := by
      rw [apply_var]
      cases h : σ.get? x with
      | none => rfl
      | some image => exact hobject x image h
    exact iff_of_false (Term.not_holds_of_isFormula_eq_false rfl) (not_instanceHolds himage)
  | not t ih =>
    rw [apply_not]
    simp only [Term.holds, instanceHolds, ih hfree.negated]
  | binary c l r ihl ihr =>
    rw [apply_binary]
    cases c <;> simp only [Term.holds, instanceHolds, ihl hfree.left, ihr hfree.right]
  | quantified q z body ih =>
    by_cases hz : z ∈ σ.domain
    · rw [apply_quantified_of_mem hz]
      cases q <;> simp only [instanceHolds, if_pos hz]
    · have hbody (d : D) : body.holds M (Function.update (σ.assign M ρ) z d) ↔
          σ.instanceHolds M (Function.update ρ z d) (σ.apply body) := by
        rw [← ih hfree.body, assign_update hz fun x image => hfree.not_mem]
      rw [hfree.apply_quantified hz]
      cases q <;> simp only [Term.holds, instanceHolds, if_neg hz, hbody]

/-- Formulas of opposite sign with a common instance do not both hold when every variable has the
value of its image. -/
theorem not_holds_of_apply_eq {σ : Substitution} {left right : Signed}
    (hobject : ∀ x image, σ.get? x = some image → image.isFormula = false)
    (hleft : σ.CaptureFree left.formula) (hright : σ.CaptureFree right.formula)
    (hsign : left.sign ≠ right.sign) (heq : σ.apply left.formula = σ.apply right.formula)
    (hholds : left.holds M (σ.assign M ρ)) : ¬ right.holds M (σ.assign M ρ) := by
  have hiff : left.formula.holds M (σ.assign M ρ) ↔ right.formula.holds M (σ.assign M ρ) := by
    rw [holds_assign_iff hobject hleft, heq, ← holds_assign_iff hobject hright]
  obtain ⟨signl, l⟩ := left
  obtain ⟨signr, r⟩ := right
  -- equal signs are excluded, and of opposite signs one says that the instance is false
  cases signl <;> cases signr
  · exact absurd rfl hsign
  · exact fun hdenied => hdenied (hiff.mp hholds)
  · exact fun haffirmed => hholds (hiff.mpr haffirmed)
  · exact absurd rfl hsign

end Substitution

end SignedTableaux
