import Mathlib.Algebra.BigOperators.Group.List.Basic
import Mathlib.Algebra.GroupWithZero.Nat
import SignedTableaux.Proofs.Substitution.Lookup

/-!
# Counting connectives

The connectives and quantifiers of a formula tell how often it can be taken apart. A substitution
that puts in no connectives keeps their number, whatever else it does to the size of the formula.

## Main definitions

* `Term.connectives` — the number of connectives and quantifiers in a term

## Main results

* `Substitution.connectives_apply` — a substitution by terms without connectives keeps the number
-/

namespace SignedTableaux

namespace Term

mutual

/-- The number of connectives and quantifiers, also of those among arguments. -/
def connectives : Term → Nat
  | .app _ _ args => connectivesList args
  | .var _ => 0
  | .not t => t.connectives + 1
  | .binary _ l r => l.connectives + r.connectives + 1
  | .quantified _ _ body => body.connectives + 1

/-- The number of connectives and quantifiers in all terms of a list. -/
def connectivesList : List Term → Nat
  | [] => 0
  | t :: ts => t.connectives + connectivesList ts

end

theorem connectivesList_eq_sum (ts : List Term) :
    connectivesList ts = (ts.map connectives).sum := by
  induction ts with
  | nil => rfl
  | cons t ts ih => rw [connectivesList, ih, List.map_cons, List.sum_cons]

theorem connectives_app (k : SymbolKind) (f : String) (args : List Term) :
    (app k f args).connectives = (args.map connectives).sum :=
  connectivesList_eq_sum args

end Term

/-- A substitution by terms without connectives keeps their number, also where it renames
binders. -/
theorem Substitution.connectives_apply {σ : Substitution}
    (h : ∀ x image, σ.get? x = some image → image.connectives = 0) (t : Term) :
    (σ.apply t).connectives = t.connectives := by
  induction t generalizing σ with
  | app k f args ih =>
    rw [apply_app, Term.connectives_app, Term.connectives_app, List.map_map]
    exact congrArg List.sum (List.map_congr_left fun arg harg => ih arg harg h)
  | var x =>
    rw [apply_var]
    cases himage : σ.get? x with
    | none => rfl
    | some image => exact h x image himage
  | not t ih => exact congrArg (· + 1) (ih h)
  | binary c l r ihl ihr => exact congrArg₂ (· + · + 1) (ihl h) (ihr h)
  | quantified q x body ih =>
    by_cases hx : x ∈ σ.domain
    · rw [apply_quantified_of_mem hx]
    by_cases hcaptures : σ.captures x body
    · rw [apply_quantified_of_captures hx hcaptures]
      refine congrArg (· + 1) (ih fun y image himage => ?_)
      rw [get?_insert] at himage
      split at himage
      · obtain rfl := Option.some.inj himage
        rfl
      · exact h y image himage
    · rw [apply_quantified_of_not_captures hx hcaptures]
      exact congrArg (· + 1) (ih h)

theorem Term.connectives_substitute {r : Term} (h : r.connectives = 0) (t : Term) (x : String) :
    (t.substitute x r).connectives = t.connectives := by
  refine Substitution.connectives_apply (fun y image himage => ?_) t
  obtain ⟨-, rfl⟩ : y = x ∧ r = image := by simpa [Substitution.get?_single] using himage
  exact h

end SignedTableaux
