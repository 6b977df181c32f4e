import SignedTableaux.Substitution.Parse
import SignedTableaux.Tableau.Node

/-!
# Proof sessions

A session proves one formula: its tableau starts with the formula denied, and the formula is
proved once every goal is closed. An operation returns its result together with the session
afterwards.

## Main definitions

* `Session` — a tableau and a supply of names that avoids the symbols of the formula
* `Session.applyRule`, `Session.applyRuleNearest` — expand a node at a goal
* `Session.closeWith`, `Session.close` — close the goals below two complementary nodes
* `Request`, `Session.perform` — the operations as data, and what they do
-/

namespace SignedTableaux

/-- A proof in progress. -/
structure Session where
  tableau : Tableau
  names : NameSupply
deriving DecidableEq

/-- What a closure did. -/
structure Closure where
  /-- The node below which goals were closed. -/
  ancestor : NodeId
  /-- The goals that were closed, from left to right. -/
  closed : List NodeId
  substitution : Substitution
deriving DecidableEq

namespace Session

/-- A session for a formula. -/
def ofFormula (formula : Term) : Session :=
  ⟨.start ⟨.denied, formula⟩, .avoiding formula.symbols⟩

/-- A session for the formula written in a text. -/
def start (text : String) : Except ProofError Session :=
  match Formula.parse text with
  | .ok formula => .ok (ofFormula formula)
  | .error e => .error (.language (.unreadable e))

/-- Whether the formula is proved. -/
def isProved (s : Session) : Bool :=
  s.tableau.isClosed

/-- The node of a number. -/
def node (s : Session) (id : NodeId) : Except ProofError Node :=
  orFail (s.tableau.node? id) (.unknownNode id)

/-- The entry that a node stands for: its own, or the nearest one above a goal. -/
def entryFor (s : Session) (id : NodeId) : Except ProofError Entry := do
  let _ ← s.node id
  orFail (s.tableau.nearest? id) (.noFormula id)

/-- The rules that apply to the entry that a node stands for. -/
def applicableRules (s : Session) (id : NodeId) : Except ProofError (List Rule) := do
  let entry ← s.entryFor id
  return entry.signed.rule?.toList

/-! ### Rule application -/

/-- The entry to expand, if `rule` can be applied to the node `source` at `goal`: an open goal below
`source`, and a rule that applies there and was not applied to it on this branch. -/
def sourceEntry (s : Session) (rule : Rule) (goal source : NodeId) : Except ProofError Entry := do
  let node ← s.node goal
  require node.isGoal (.notAGoal goal)
  require (¬ node.isClosed) (.goalClosed goal)
  let entry ← orFail (← s.node source).asEntry (.noFormula source)
  require (s.tableau.isAncestor source goal) (.notOnBranch source goal)
  require (entry.signed.rule? = some rule) (.ruleNotApplicable rule entry.signed)
  require (¬ s.tableau.isExpandedOn source goal) (.alreadyExpanded source goal)
  return entry

/-- Applies a rule to the node `source` at an open goal; the result lists the new goals. -/
def applyRule (s : Session) (rule : Rule) (goal source : NodeId) :
    Except ProofError (List NodeId) × Session :=
  match s.sourceEntry rule goal source with
  | .error e => (.error e, s)
  | .ok entry =>
    match rule.expand entry.signed (s.tableau.freeVars goal) s.names with
    | (.error e, names) => (.error e, ⟨s.tableau, names⟩)
    | (.ok expansion, names) =>
      let (tableau, goals) := s.tableau.expand goal ⟨rule, source⟩ expansion
      (.ok goals, ⟨tableau, names⟩)

/-- Applies a rule at a goal to the nearest entry above it. -/
def applyRuleNearest (s : Session) (rule : Rule) (goal : NodeId) :
    Except ProofError (List NodeId) × Session :=
  match s.entryFor goal with
  | .error e => (.error e, s)
  | .ok entry => s.applyRule rule goal entry.id

/-! ### Closure -/

/-- The node below which `σ` closes all goals, and its open goals, if the entries that `a` and `b`
stand for have opposite signs and a common instance under `σ`. -/
def closureAt (s : Session) (a b : NodeId) (σ : Substitution) :
    Except ProofError (NodeId × List NodeId) := do
  let left ← s.entryFor a
  let right ← s.entryFor b
  require (left.signed.sign ≠ right.signed.sign) (.sameSign left.id right.id left.signed.sign)
  let ancestor ← orFail (s.tableau.commonAncestor? left.id right.id) (.noCommonAncestor a b)
  let _ ← (σ.unify left.signed.formula right.signed.formula).mapError .notUnifiable
  let goals := s.tableau.openGoalsBelow ancestor
  require (goals ≠ []) (.noOpenGoals ancestor)
  return (ancestor, goals)

/-- Closes every open goal below the nearest common ancestor of two complementary nodes. The names
in the images of `σ` are out of use from then on. -/
def closeWith (s : Session) (a b : NodeId) (σ : Substitution) :
    Except ProofError Closure × Session :=
  match s.closureAt a b σ with
  | .error e => (.error e, s)
  | .ok (ancestor, goals) =>
    (.ok ⟨ancestor, goals, σ⟩,
      ⟨s.tableau.closeBelow ancestor σ, s.names.reserve σ.imageSymbols⟩)

/-- The substitution written in a text, where the variables introduced above `a` and `b` are
variables. -/
def closingSubstitution (s : Session) (a b : NodeId) (text : String) :
    Except ProofError Substitution := do
  let _ ← s.node a
  let _ ← s.node b
  (Substitution.parse text (s.tableau.freeVars a ++ s.tableau.freeVars b)).mapError .language

/-- Closes goals by the substitution written in a text. -/
def close (s : Session) (a b : NodeId) (text : String) : Except ProofError Closure × Session :=
  match s.closingSubstitution a b text with
  | .error e => (.error e, s)
  | .ok σ => s.closeWith a b σ

end Session

/-! ### Operations as data -/

/-- An operation on a session. -/
inductive Request where
  | applyRule (rule : Rule) (goal source : NodeId)
  | applyRuleNearest (rule : Rule) (goal : NodeId)
  | close (a b : NodeId) (text : String)
  | closeWith (a b : NodeId) (σ : Substitution)

/-- The result of an operation. -/
inductive Reply where
  | newGoals (goals : List NodeId)
  | closure (closure : Closure)
deriving DecidableEq

/-- Does what a request asks for. -/
def Session.perform (s : Session) : Request → Except ProofError Reply × Session
  | .applyRule rule goal source => (s.applyRule rule goal source).map (·.map .newGoals) id
  | .applyRuleNearest rule goal => (s.applyRuleNearest rule goal).map (·.map .newGoals) id
  | .close a b text => (s.close a b text).map (·.map .closure) id
  | .closeWith a b σ => (s.closeWith a b σ).map (·.map .closure) id

end SignedTableaux
