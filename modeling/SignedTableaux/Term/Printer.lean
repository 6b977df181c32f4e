import SignedTableaux.Substitution.Basic
import SignedTableaux.Term.Disagreement

/-!
# Printed terms

Terms are printed in the notation that `Formula.parse` reads, with parentheses only where an
operand binds more weakly than its place asks for.

## Main definitions

* `Term.precedence`, `Term.kindName` — how tightly the head of a term binds, and what it is
  called
* `Term.render`, `Substitution.render`, `Mismatch.render` — the printed forms
-/

namespace SignedTableaux

/-- The sign of a connective. -/
def Connective.sign : Connective → String
  | .and => "&"
  | .or => "|"
  | .implies => "->"

/-- The keyword of a quantifier. -/
def Quantifier.keyword : Quantifier → String
  | .universal => "forall"
  | .existential => "exists"

namespace Connective

/-- How tightly a connective binds. -/
def precedence : Connective → Nat
  | .and => 3
  | .or => 2
  | .implies => 1

/-- The least precedence of a left operand without parentheses: conjunction and disjunction group to
the left, implication does not. -/
def leftPrecedence : Connective → Nat
  | .and => 3
  | .or => 2
  | .implies => 2

/-- The least precedence of a right operand without parentheses: implication groups to the right,
conjunction and disjunction do not. -/
def rightPrecedence : Connective → Nat
  | .and => 4
  | .or => 3
  | .implies => 1

end Connective

namespace Term

/-- How tightly the head of a term binds: a quantifier least, then implication, disjunction and
conjunction, then everything else. -/
def precedence : Term → Nat
  | .quantified .. => 0
  | .binary op _ _ => op.precedence
  | _ => 4

/-- The name of the kind of term. -/
def kindName : Term → String
  | .app .predicate _ _ => "predicate"
  | .app .function _ _ => "function"
  | .var _ => "variable"
  | .not _ => "not"
  | .binary .and _ _ => "and"
  | .binary .or _ _ => "or"
  | .binary .implies _ _ => "implies"
  | .quantified q _ _ => q.keyword

/-- Puts a printed operand in parentheses if its term binds more weakly than its place asks for. -/
def enclose (place : Nat) (t : Term) (printed : String) : String :=
  if t.precedence < place then "(" ++ printed ++ ")" else printed

mutual

/-- The printed form of a term. -/
def render : Term → String
  | .app _ f [] => f
  | .app _ f (a :: as) => f ++ "(" ++ a.render ++ renderRest as ++ ")"
  | .var x => x
  | .not t => "~" ++ t.enclose 4 t.render
  | .binary op l r =>
    l.enclose op.leftPrecedence l.render ++ " " ++ op.sign ++ " " ++
      r.enclose op.rightPrecedence r.render
  | .quantified q x body => q.keyword ++ " " ++ x ++ ". " ++ body.render

/-- The printed form of the arguments after the first, each with a comma before it. -/
def renderRest : List Term → String
  | [] => ""
  | t :: ts => ", " ++ t.render ++ renderRest ts

end

end Term

/-- The printed form of a substitution: its bindings as `name/term`, with bars between them. -/
def Substitution.render (σ : Substitution) : String :=
  " | ".intercalate (σ.bindings.map fun (x, t) => x ++ "/" ++ t.render)

/-- Both terms and the place where they part. -/
def Mismatch.render (m : Mismatch) : String :=
  m.left.render ++ " and " ++ m.right.render ++ " differ at " ++ m.disagreement.1.render ++
    " vs " ++ m.disagreement.2.render

end SignedTableaux
