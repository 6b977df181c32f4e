import SignedTableaux.Substitution.Basic
import SignedTableaux.Tableau.NameSupply
import SignedTableaux.Tableau.ProofError

/-!
# Expansions

A rule turns a signed formula into fragments. A universal claim is instantiated with a fresh
variable, an existential one with a fresh function symbol applied to the variables in scope.

## Main definitions

* `Fragment`, `Expansion` — what a rule adds to a branch, stacked or as two alternatives
* `Rule.expand` — the expansion of a signed formula by a rule, and the supply of names after it
-/

namespace SignedTableaux

/-- A signed formula that a rule produces, with the variable it introduces, if any. -/
structure Fragment where
  signed : Signed
  introduced : Option String := none
deriving DecidableEq

/-- What a rule adds to a branch. -/
inductive Expansion where
  /-- Fragments one below the other. -/
  | linear (first : Fragment) (others : List Fragment)
  /-- Two alternatives, each on a branch of its own. -/
  | branching (left right : Fragment)
deriving DecidableEq

/-- The fragments of an expansion. -/
def Expansion.fragments : Expansion → List Fragment
  | .linear first others => first :: others
  | .branching left right => [left, right]

/-- The expansion that a decomposition stands for, where `scope` lists the variables that the branch
introduced. Only the quantifier rules draw a name. -/
def Decomposition.expand (d : Decomposition) (scope : List String) (names : NameSupply) :
    Except ProofError Expansion × NameSupply :=
  match d with
  | .alpha first others => (.ok (.linear ⟨first, none⟩ (others.map (⟨·, none⟩))), names)
  | .beta left right => (.ok (.branching ⟨left, none⟩ ⟨right, none⟩), names)
  | .gamma sign x body =>
    if x = "" then (.error (.invariant (.unnamedQuantifier .gamma)), names)
    else
      let (y, names) := names.freshVariable x
      (.ok (.linear ⟨⟨sign, body.rename x y⟩, some y⟩ []), names)
  | .delta sign x body =>
    if x = "" then (.error (.invariant (.unnamedQuantifier .delta)), names)
    else
      let (t, names) := names.freshSkolem (scope.map .var)
      (.ok (.linear ⟨⟨sign, body.substitute x t⟩, none⟩ []), names)

/-- The expansion of a signed formula by a rule, and the supply of names afterwards. -/
def Rule.expand (rule : Rule) (source : Signed) (scope : List String) (names : NameSupply) :
    Except ProofError Expansion × NameSupply :=
  match source.decomposition? with
  | none => (.error (.ruleNotApplicable rule source), names)
  | some d =>
    if d.rule = rule then d.expand scope names
    else (.error (.ruleNotApplicable rule source), names)

end SignedTableaux
