import SignedTableaux.Substitution.Basic

/-!
# Disagreement of terms

Two terms are compared from the left. Where they part, the comparison gives the two subterms at
that place; two terms that never part are equal.

## Main definitions

* `Term.disagreement?` — the first pair of subterms with different heads
* `Substitution.unify` — the common instance of two terms, or the `Mismatch` of their instances
-/

namespace SignedTableaux

namespace Term

mutual

/-- The first place, from the left, where two terms have different heads: another kind of term, or
another symbol, name, connective, quantifier, bound name or number of arguments. -/
def disagreement? : Term → Term → Option (Term × Term)
  | .app k f as, .app l g bs =>
    if k = l ∧ f = g ∧ as.length = bs.length then disagreementList? as bs
    else some (.app k f as, .app l g bs)
  | .var x, .var y => if x = y then none else some (.var x, .var y)
  | .not s, .not t => disagreement? s t
  | .binary c s s', .binary d t t' =>
    if c = d then (disagreement? s t).or (disagreement? s' t')
    else some (.binary c s s', .binary d t t')
  | .quantified q x s, .quantified r y t =>
    if q = r ∧ x = y then disagreement? s t
    else some (.quantified q x s, .quantified r y t)
  | s, t => some (s, t)

/-- The first disagreement of terms at the same place of two lists. -/
def disagreementList? : List Term → List Term → Option (Term × Term)
  | a :: as, b :: bs => (disagreement? a b).or (disagreementList? as bs)
  | _, _ => none

end

end Term

/-- Two terms that differ, with the first disagreement between them. -/
structure Mismatch where
  left : Term
  right : Term
  disagreement : Term × Term
deriving DecidableEq

/-- The common instance of `s` and `t` under `σ`, if they have one. -/
def Substitution.unify (σ : Substitution) (s t : Term) : Except Mismatch Term :=
  match (σ.apply s).disagreement? (σ.apply t) with
  | none => .ok (σ.apply s)
  | some d => .error ⟨σ.apply s, σ.apply t, d⟩

end SignedTableaux
