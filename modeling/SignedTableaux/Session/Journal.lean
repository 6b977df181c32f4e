import SignedTableaux.Session.Basic

/-!
# Journal

What a session reports about its operations: each success, and each refusal with its cause.

## Main definitions

* `JournalLevel`, `JournalLine` — a line and its weight
* `Journal.ofStart`, `Journal.ofRequest` — the lines for a new session and for an operation
-/

namespace SignedTableaux

/-- How grave a line is. -/
inductive JournalLevel where
  | debug
  | warn
  | error
deriving DecidableEq

/-- The name of a level. -/
def JournalLevel.name : JournalLevel → String
  | .debug => "DEBUG"
  | .warn => "WARN"
  | .error => "ERROR"

/-- A line of the journal. -/
structure JournalLine where
  level : JournalLevel
  text : String
deriving DecidableEq

/-- The printed form of a line. -/
def JournalLine.render (line : JournalLine) : String :=
  line.level.name ++ " " ++ line.text

namespace Journal

/-- The lines for a new session. -/
def ofStart (s : Session) : List JournalLine :=
  (s.tableau.rootEntry.map fun entry : Entry =>
    JournalLine.mk .debug ("starting proof of " ++ entry.signed.formula.render)).toList

/-- The lines for a breach, where it is met. -/
def ofBreach : Breach → List JournalLine
  | .unnamedQuantifier rule => [⟨.error, (Breach.unnamedQuantifier rule).text⟩]
  | .fault f => [⟨.error, "proof tree invariant violated: " ++ f.text⟩]
  | .noExpansion .. | .noFragments _ | .orphanGoal _ | .missingFormula .. => []

/-- The lines for a refused operation. A breach is an error of the program, not of the user. -/
def ofRefusal (operation : String) (e : ProofError) : List JournalLine :=
  match e with
  | .invariant breach => ofBreach breach ++ [⟨.error, operation ++ " failed: " ++ e.message⟩]
  | e => [⟨.warn, operation ++ " rejected: " ++ e.message⟩]

/-- The lines for a rule application. -/
def ofRule (rule : Rule) (goal source : NodeId) :
    Except ProofError (List NodeId) → List JournalLine
  | .ok goals =>
    [⟨.debug, "applied " ++ rule.name ++ " to node " ++ source.repr ++ " at goal " ++ goal.repr ++
      ": new goals [" ++ NodeId.list goals ++ "]"⟩]
  | .error e => ofRefusal "rule application" e

/-- The lines for a closure. -/
def ofClosure : Except ProofError Closure → List JournalLine
  | .ok closure =>
    [⟨.debug, "closed goals [" ++ NodeId.list closure.closed ++ "] below node " ++
      closure.ancestor.repr ++ " with \x7b" ++ closure.substitution.render ++ "\x7d"⟩]
  | .error e => ofRefusal "closure" e

/-- The lines for an operation on a session. A goal that does not exist has no nearest entry, so a
rule is not even tried there. -/
def ofRequest (s : Session) : Request → List JournalLine
  | .applyRule rule goal source => ofRule rule goal source (s.applyRule rule goal source).1
  | .applyRuleNearest rule goal =>
    match s.entryFor goal with
    | .error _ => []
    | .ok entry => ofRule rule goal entry.id (s.applyRule rule goal entry.id).1
  | .close a b text => ofClosure (s.close a b text).1
  | .closeWith a b σ => ofClosure (s.closeWith a b σ).1

end Journal

end SignedTableaux
