import SignedTableaux.Term.Printer

/-!
# Signed formulas

A signed formula affirms or denies a formula. Every signed formula that can be taken apart is of
one of four kinds: its parts hold together, one of two parts holds, every instance holds, or
some instance holds.

## Main definitions

* `Sign`, `Signed` — a claim that a formula is true, or that it is false
* `Rule` — the four kinds
* `Decomposition`, `Signed.decomposition?` — the parts of a signed formula
* `Signed.rule?` — the rule that applies to a signed formula
-/

namespace SignedTableaux

/-- Whether a formula is claimed to be true or to be false. -/
inductive Sign where
  | affirmed
  | denied
deriving DecidableEq

namespace Sign

/-- The opposite sign. -/
def flip : Sign → Sign
  | .affirmed => .denied
  | .denied => .affirmed

/-- The letter of a sign: true or false. -/
def letter : Sign → String
  | .affirmed => "T"
  | .denied => "F"

end Sign

/-- A formula that is affirmed or denied. -/
structure Signed where
  sign : Sign
  formula : Term
deriving DecidableEq

/-- The printed form: the letter of the sign and the formula. -/
def Signed.render (s : Signed) : String :=
  s.sign.letter ++ " " ++ s.formula.render

/-- The rules that take signed formulas apart. -/
inductive Rule where
  /-- All parts hold. -/
  | alpha
  /-- One of two parts holds. -/
  | beta
  /-- Every instance of the body holds. -/
  | gamma
  /-- Some instance of the body holds. -/
  | delta
deriving DecidableEq

namespace Rule

/-- All rules. -/
def all : List Rule :=
  [.alpha, .beta, .gamma, .delta]

/-- The name of a rule. -/
def name : Rule → String
  | .alpha => "alpha"
  | .beta => "beta"
  | .gamma => "gamma"
  | .delta => "delta"

/-- The rule of a name. -/
def ofName? (text : String) : Option Rule :=
  all.find? (·.name = text)

/-- Whether a rule splits a branch. -/
def isBranching (rule : Rule) : Bool :=
  rule = .beta

end Rule

/-- The parts of a signed formula. -/
inductive Decomposition where
  /-- The first part, and the second if there is one. -/
  | alpha (first : Signed) (others : List Signed)
  | beta (left right : Signed)
  /-- A body claimed of every value of the bound name. -/
  | gamma (sign : Sign) (bound : String) (body : Term)
  /-- A body claimed of some value of the bound name. -/
  | delta (sign : Sign) (bound : String) (body : Term)
deriving DecidableEq

/-- The rule that a decomposition belongs to. -/
def Decomposition.rule : Decomposition → Rule
  | .alpha .. => .alpha
  | .beta .. => .beta
  | .gamma .. => .gamma
  | .delta .. => .delta

namespace Signed

/-- The parts of a signed formula; atoms and terms that are no formulas have none. -/
def decomposition? : Signed → Option Decomposition
  | ⟨sign, .not t⟩ => some (.alpha ⟨sign.flip, t⟩ [])
  | ⟨.affirmed, .binary .and l r⟩ => some (.alpha ⟨.affirmed, l⟩ [⟨.affirmed, r⟩])
  | ⟨.denied, .binary .or l r⟩ => some (.alpha ⟨.denied, l⟩ [⟨.denied, r⟩])
  | ⟨.denied, .binary .implies l r⟩ => some (.alpha ⟨.affirmed, l⟩ [⟨.denied, r⟩])
  | ⟨.denied, .binary .and l r⟩ => some (.beta ⟨.denied, l⟩ ⟨.denied, r⟩)
  | ⟨.affirmed, .binary .or l r⟩ => some (.beta ⟨.affirmed, l⟩ ⟨.affirmed, r⟩)
  | ⟨.affirmed, .binary .implies l r⟩ => some (.beta ⟨.denied, l⟩ ⟨.affirmed, r⟩)
  | ⟨.affirmed, .quantified .universal x body⟩ => some (.gamma .affirmed x body)
  | ⟨.denied, .quantified .existential x body⟩ => some (.gamma .denied x body)
  | ⟨.denied, .quantified .universal x body⟩ => some (.delta .denied x body)
  | ⟨.affirmed, .quantified .existential x body⟩ => some (.delta .affirmed x body)
  | ⟨_, .app ..⟩ | ⟨_, .var _⟩ => none

/-- The rule that applies, if one does. -/
def rule? (s : Signed) : Option Rule :=
  s.decomposition?.map Decomposition.rule

end Signed

end SignedTableaux
