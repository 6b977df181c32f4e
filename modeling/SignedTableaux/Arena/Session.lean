import SignedTableaux.Arena.Basic
import SignedTableaux.Session.Basic

/-!
# Proof sessions on a store

A session that keeps its tableau in an arena. Every operation checks what it is given against the
links and marks that are stored, and changes them in place.

## Main definitions

* `ArenaSession` — an arena and a supply of names
* `ArenaSession.applyRule`, `ArenaSession.applyRuleNearest` — expand a node at a goal
* `ArenaSession.closeWith`, `ArenaSession.close` — close the goals below two complementary nodes
* `ArenaSession.perform`, `ArenaSession.after` — one request, and a run of requests
-/

namespace SignedTableaux

/-- A proof in progress, in store. -/
structure ArenaSession where
  arena : Arena
  names : NameSupply
deriving DecidableEq

namespace ArenaSession

/-- A session for a formula. -/
def ofFormula (formula : Term) : ArenaSession :=
  ⟨.start ⟨.denied, formula⟩, .avoiding formula.symbols⟩

/-- A session for the formula written in a text. -/
def start (text : String) : Except ProofError ArenaSession :=
  match Formula.parse text with
  | .ok formula => .ok (ofFormula formula)
  | .error e => .error (.language (.unreadable e))

/-- Whether the formula is proved. -/
def isProved (s : ArenaSession) : Bool :=
  s.arena.isClosed

/-- The node with a formula that a node stands for: itself, or the nearest one above a goal. -/
def formulaNode (s : ArenaSession) (id : NodeId) : Except ProofError NodeId := do
  let _ ← s.arena.slot id
  orFail (s.arena.nearestFormula? id) (.noFormula id)

/-- The signed formula that a node stands for. -/
def signedFormula (s : ArenaSession) (id : NodeId) : Except ProofError Signed := do
  let k ← s.formulaNode id
  let source ← s.arena.slot k
  let formula ← orFail source.formula (.noFormula k)
  return ⟨source.sign, formula⟩

/-- The rules that apply to the formula that a node stands for. -/
def applicableRules (s : ArenaSession) (id : NodeId) : Except ProofError (List Rule) := do
  let signed ← s.signedFormula id
  return Rule.all.filter (·.applies signed)

/-! ### Rule application -/

/-- The signed formula to expand, if `rule` can be applied to the node `source` at `goal`. -/
def sourceFormula (s : ArenaSession) (rule : Rule) (goal source : NodeId) :
    Except ProofError Signed := do
  let goalSlot ← s.arena.slot goal
  require goalSlot.isGoal (.notAGoal goal)
  require (¬ goalSlot.isClosed) (.goalClosed goal)
  let sourceSlot ← s.arena.slot source
  let formula ← orFail sourceSlot.formula (.noFormula source)
  require (s.arena.isAncestor source goal) (.notOnBranch source goal)
  let signed : Signed := ⟨sourceSlot.sign, formula⟩
  require (rule.applies signed) (.ruleNotApplicable rule signed)
  require (¬ s.arena.isExpandedOn source goal) (.alreadyExpanded source goal)
  return signed

/-- Applies a rule to the node `source` at an open goal; the result lists the new goals. The names
that the rule has drawn stay drawn, whatever becomes of it. -/
def applyRule (s : ArenaSession) (rule : Rule) (goal source : NodeId) :
    Except ProofError (List NodeId) × ArenaSession :=
  match s.sourceFormula rule goal source with
  | .error e => (.error e, s)
  | .ok signed =>
    match rule.yield signed (s.arena.freeVars goal) s.names with
    | (.error e, names) => (.error e, ⟨s.arena, names⟩)
    | (.ok yield, names) =>
      let (result, arena) := s.arena.expand goal yield ⟨rule, source⟩
      (result, ⟨arena, names⟩)

/-- Applies a rule at a goal to the nearest formula above it. -/
def applyRuleNearest (s : ArenaSession) (rule : Rule) (goal : NodeId) :
    Except ProofError (List NodeId) × ArenaSession :=
  match s.formulaNode goal with
  | .error e => (.error e, s)
  | .ok source => s.applyRule rule goal source

/-! ### Closure -/

/-- The node below which `σ` closes all goals, and its open goals, if the formulas that `a` and `b`
stand for have opposite signs and a common instance under `σ`. -/
def closureAt (s : ArenaSession) (a b : NodeId) (σ : Substitution) :
    Except ProofError (NodeId × List NodeId) := do
  let left ← s.formulaNode a
  let right ← s.formulaNode b
  let leftSlot ← s.arena.slot left
  let rightSlot ← s.arena.slot right
  require (leftSlot.sign ≠ rightSlot.sign) (.sameSign left right leftSlot.sign)
  let ancestor ← orFail (s.arena.commonAncestor? left right) (.noCommonAncestor a b)
  let leftFormula ← orFail leftSlot.formula (.invariant (.missingFormula a b))
  let rightFormula ← orFail rightSlot.formula (.invariant (.missingFormula a b))
  let _ ← (σ.unify leftFormula rightFormula).mapError .notUnifiable
  let goals := s.arena.openGoalsBelow ancestor
  require (goals ≠ []) (.noOpenGoals ancestor)
  return (ancestor, goals)

/-- Closes every open goal below the nearest common ancestor of two complementary nodes. The names
in the images of `σ` are out of use from then on. -/
def closeWith (s : ArenaSession) (a b : NodeId) (σ : Substitution) :
    Except ProofError Closure × ArenaSession :=
  match s.closureAt a b σ with
  | .error e => (.error e, s)
  | .ok (ancestor, goals) =>
    (.ok ⟨ancestor, goals, σ⟩,
      ⟨s.arena.closeGoals goals σ, s.names.reserve σ.imageSymbols⟩)

/-- The substitution written in a text, where the variables introduced above `a` and `b` are
variables. -/
def closingSubstitution (s : ArenaSession) (a b : NodeId) (text : String) :
    Except ProofError Substitution := do
  let _ ← s.arena.slot a
  let _ ← s.arena.slot b
  (Substitution.parse text (s.arena.freeVars a ++ s.arena.freeVars b)).mapError .language

/-- Closes goals by the substitution written in a text. -/
def close (s : ArenaSession) (a b : NodeId) (text : String) :
    Except ProofError Closure × ArenaSession :=
  match s.closingSubstitution a b text with
  | .error e => (.error e, s)
  | .ok σ => s.closeWith a b σ

/-! ### Operations as data -/

/-- Does what a request asks for. -/
def perform (s : ArenaSession) : Request → Except ProofError Reply × ArenaSession
  | .applyRule rule goal source => (s.applyRule rule goal source).map (·.map .newGoals) id
  | .applyRuleNearest rule goal => (s.applyRuleNearest rule goal).map (·.map .newGoals) id
  | .close a b text => (s.close a b text).map (·.map .closure) id
  | .closeWith a b σ => (s.closeWith a b σ).map (·.map .closure) id

/-- The session after a run of requests. -/
def after (s : ArenaSession) (rs : List Request) : ArenaSession :=
  rs.foldl (fun s r => (s.perform r).2) s

end ArenaSession

end SignedTableaux
