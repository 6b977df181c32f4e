import SignedTableaux.Diagnostic.LanguageError
import SignedTableaux.Tableau.NodeId
import SignedTableaux.Tableau.Signed

/-!
# Proof errors

The causes for which an operation on a proof is refused. Some lie in what was asked for; a breach
lies in the proof itself.

## Main definitions

* `Fault` — what may be wrong with the links and marks of a stored node
* `Breach` — what may be wrong with a proof
* `ProofError` — the causes
* `ErrorCategory`, `ProofError.category` — whose fault it is
* `ProofError.message` — the wording
* `require`, `orFail` — guards
-/

namespace SignedTableaux

/-- What may be wrong with the nodes of a stored tableau. -/
inductive Fault where
  /-- Not all nodes are found from the root. -/
  | unreachable (found stored : Nat)
  | rootHasParent
  /-- A child does not name its parent, or not its place among the children. -/
  | misplaced (child : NodeId) (index : Nat) (parent : NodeId) (link : Option NodeId)
      (position : Nat)
  /-- A node without a formula is not a goal without children. -/
  | bareNode (node : NodeId)
  /-- A node with a formula is a goal, or has no children. -/
  | formulaLeaf (node : NodeId)
  | closedFormula (node : NodeId)
deriving DecidableEq

namespace Fault

/-- The wording of what a child names as its parent. -/
def linkText : Option NodeId → String
  | none => "None"
  | some id => "Some(NodeId(" ++ id.repr ++ "))"

/-- The wording of a fault. -/
def text : Fault → String
  | .unreachable found stored =>
    found.repr ++ " nodes reachable from the root, " ++ stored.repr ++ " allocated"
  | .rootHasParent => "root has a parent"
  | .misplaced child index parent link position =>
    "node " ++ child.repr ++ " is child " ++ index.repr ++ " of " ++ parent.repr ++
      " but links to " ++ linkText link ++ " at " ++ position.repr
  | .bareNode n => "node " ++ n.repr ++ " has no formula but is not a goal leaf"
  | .formulaLeaf n => "formula node " ++ n.repr ++ " is a goal or a leaf"
  | .closedFormula n => "node " ++ n.repr ++ " is closed but not a goal"

end Fault

/-- What may be wrong with a proof. -/
inductive Breach where
  /-- A rule met a quantifier that binds the empty name. -/
  | unnamedQuantifier (rule : Rule)
  /-- A rule that applies does not say what it adds. -/
  | noExpansion (rule : Rule) (source : Signed)
  /-- A rule adds nothing. -/
  | noFragments (rule : Rule)
  /-- A goal that should split has no parent. -/
  | orphanGoal (goal : NodeId)
  /-- The nodes that two nodes stand for do not both hold a formula. -/
  | missingFormula (left right : NodeId)
  | fault (fault : Fault)
deriving DecidableEq

/-- The wording of a breach. -/
def Breach.text : Breach → String
  | .unnamedQuantifier rule => rule.name ++ " applied to a quantifier without a bound name"
  | .noExpansion rule source =>
    rule.name ++ " accepted " ++ source.render ++ " but has no expansion for it"
  | .noFragments rule => rule.name ++ " produced no fragments"
  | .orphanGoal goal => "goal " ++ goal.repr ++ " has no parent"
  | .missingFormula left right =>
    "nearest formula of " ++ left.repr ++ " or " ++ right.repr ++ " has no formula"
  | .fault f => f.text

/-- The causes for which an operation on a proof is refused. -/
inductive ProofError where
  | unknownNode (node : NodeId)
  | notAGoal (node : NodeId)
  | goalClosed (goal : NodeId)
  | notOnBranch (node goal : NodeId)
  | noFormula (node : NodeId)
  | ruleNotApplicable (rule : Rule) (source : Signed)
  | alreadyExpanded (node goal : NodeId)
  | sameSign (left right : NodeId) (sign : Sign)
  | noCommonAncestor (left right : NodeId)
  | noOpenGoals (ancestor : NodeId)
  | notUnifiable (mismatch : Mismatch)
  | language (e : LanguageError)
  /-- Something is wrong with the proof. -/
  | invariant (breach : Breach)
deriving DecidableEq

/-- Whose fault an error is. -/
inductive ErrorCategory where
  /-- A node or a text that does not exist or makes no sense. -/
  | input
  /-- A rule that does not apply where it was asked for. -/
  | inapplicable
  /-- Two nodes that close nothing. -/
  | closureFailure
  /-- A proof that is not as it should be, or a formula that no text stands for. -/
  | invariant
deriving DecidableEq

/-- The name of a category. -/
def ErrorCategory.name : ErrorCategory → String
  | .input => "input"
  | .inapplicable => "inapplicable"
  | .closureFailure => "closure_failure"
  | .invariant => "invariant"

namespace ProofError

/-- The category of a cause. -/
def category : ProofError → ErrorCategory
  | .unknownNode _ | .notAGoal _ | .goalClosed _ | .noFormula _ | .language _ => .input
  | .notOnBranch .. | .ruleNotApplicable .. | .alreadyExpanded .. => .inapplicable
  | .sameSign .. | .noCommonAncestor .. | .noOpenGoals _ | .notUnifiable _ => .closureFailure
  | .invariant _ => .invariant

/-- The wording of a cause. -/
def message : ProofError → String
  | .unknownNode n => "Unknown node " ++ n.repr
  | .notAGoal n => "Node " ++ n.repr ++ " is not a goal"
  | .goalClosed n => "Goal " ++ n.repr ++ " is already closed"
  | .notOnBranch n g => "Node " ++ n.repr ++ " is not on the branch of goal " ++ g.repr
  | .noFormula n => "Node " ++ n.repr ++ " has no formula above it"
  | .ruleNotApplicable rule s => "Rule " ++ rule.name ++ " does not apply to " ++ s.render
  | .alreadyExpanded n g =>
    "Node " ++ n.repr ++ " was already expanded on the branch of goal " ++ g.repr
  | .sameSign l r sign =>
    "Nodes " ++ l.repr ++ " and " ++ r.repr ++ " both carry sign " ++ sign.letter
  | .noCommonAncestor l r =>
    "Nodes " ++ l.repr ++ " and " ++ r.repr ++ " have no common ancestor"
  | .noOpenGoals n => "No open goal below common ancestor " ++ n.repr
  | .notUnifiable m => "Formulas do not unify: " ++ m.render
  | .language e => e.message
  | .invariant breach => "Internal prover error: " ++ breach.text

end ProofError

/-- Fails with the given cause unless a condition holds. -/
def require (condition : Prop) [Decidable condition] (e : ProofError) : Except ProofError Unit :=
  if condition then .ok () else .error e

/-- The value of an option, or the given cause. -/
def orFail {α : Type} (a : Option α) (e : ProofError) : Except ProofError α :=
  match a with
  | some a => .ok a
  | none => .error e

end SignedTableaux
