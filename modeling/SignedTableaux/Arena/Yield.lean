import SignedTableaux.Tableau.Expansion

/-!
# What a rule yields

Which rule applies is one table, and what a rule adds is another. The second is read only where the
first has let a rule through; a signed formula that it does not list is a breach.

## Main definitions

* `Rule.applies` — whether a rule applies to a signed formula
* `Yield` — what a rule adds to a branch, as lists of fragments
* `Rule.yield` — what a rule adds for a signed formula, and the supply of names after it
-/

namespace SignedTableaux

/-- What a rule adds to a branch. -/
inductive Yield where
  /-- Fragments one below the other. -/
  | linear (fragments : List Fragment)
  /-- Two alternatives, each on a branch of its own. -/
  | branching (left right : Fragment)
deriving DecidableEq

namespace Rule

/-- Whether a rule applies to a signed formula. -/
def applies : Rule → Signed → Bool
  | .alpha, ⟨_, .not _⟩
  | .alpha, ⟨.denied, .binary .or _ _⟩
  | .alpha, ⟨.denied, .binary .implies _ _⟩
  | .alpha, ⟨.affirmed, .binary .and _ _⟩
  | .beta, ⟨.affirmed, .binary .or _ _⟩
  | .beta, ⟨.affirmed, .binary .implies _ _⟩
  | .beta, ⟨.denied, .binary .and _ _⟩
  | .gamma, ⟨.affirmed, .quantified .universal _ _⟩
  | .gamma, ⟨.denied, .quantified .existential _ _⟩
  | .delta, ⟨.denied, .quantified .universal _ _⟩
  | .delta, ⟨.affirmed, .quantified .existential _ _⟩ => true
  | _, _ => false

/-- What a rule adds for a formula with the given sign. Of the sign only negation and the
quantifiers make use: the connectives are told apart by the rule. -/
def fragments (rule : Rule) (sign : Sign) (formula : Term) (scope : List String)
    (names : NameSupply) : Except ProofError Yield × NameSupply :=
  match rule, formula with
  | .alpha, .not t => (.ok (.linear [⟨⟨sign.flip, t⟩, none⟩]), names)
  | .alpha, .binary .or l r => (.ok (.linear [⟨⟨.denied, l⟩, none⟩, ⟨⟨.denied, r⟩, none⟩]), names)
  | .alpha, .binary .implies l r =>
    (.ok (.linear [⟨⟨.affirmed, l⟩, none⟩, ⟨⟨.denied, r⟩, none⟩]), names)
  | .alpha, .binary .and l r =>
    (.ok (.linear [⟨⟨.affirmed, l⟩, none⟩, ⟨⟨.affirmed, r⟩, none⟩]), names)
  | .beta, .binary .or l r =>
    (.ok (.branching ⟨⟨.affirmed, l⟩, none⟩ ⟨⟨.affirmed, r⟩, none⟩), names)
  | .beta, .binary .implies l r =>
    (.ok (.branching ⟨⟨.denied, l⟩, none⟩ ⟨⟨.affirmed, r⟩, none⟩), names)
  | .beta, .binary .and l r => (.ok (.branching ⟨⟨.denied, l⟩, none⟩ ⟨⟨.denied, r⟩, none⟩), names)
  | .gamma, .quantified _ x body =>
    if x = "" then (.error (.invariant (.unnamedQuantifier rule)), names)
    else
      let (y, names) := names.freshVariable x
      (.ok (.linear [⟨⟨sign, body.rename x y⟩, some y⟩]), names)
  | .delta, .quantified _ x body =>
    if x = "" then (.error (.invariant (.unnamedQuantifier rule)), names)
    else
      let (t, names) := names.freshSkolem (scope.map .var)
      (.ok (.linear [⟨⟨sign, body.substitute x t⟩, none⟩]), names)
  | _, _ => (.error (.invariant (.noExpansion rule ⟨sign, formula⟩)), names)

/-- What a rule adds for a signed formula, and the supply of names afterwards. -/
def yield (rule : Rule) (source : Signed) (scope : List String) (names : NameSupply) :
    Except ProofError Yield × NameSupply :=
  if rule.applies source then rule.fragments source.sign source.formula scope names
  else (.error (.ruleNotApplicable rule source), names)

end Rule

end SignedTableaux
