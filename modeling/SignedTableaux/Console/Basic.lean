import SignedTableaux.Diagnostic.Excerpt
import SignedTableaux.Session.Basic
import SignedTableaux.Tableau.Graph
import SignedTableaux.Tableau.Outline

/-!
# The console

A console holds at most one session and takes commands, one a line. It answers a line with a
text, or with a complaint. Either way it goes on with the session that the command left.

## Main definitions

* `Verb` — the commands
* `Answer` — a text, a complaint, or the end
* `Console.execute` — the answer to a line, and the session afterwards
-/

namespace SignedTableaux

/-- The commands of the console. -/
inductive Verb where
  | nothing
  | help
  | quit
  | new
  | outline
  | graph
  | goals
  | rules
  | apply
  | close
deriving DecidableEq

/-- The command that a word stands for. -/
def Verb.ofWord? (word : String) : Option Verb :=
  [("", nothing), ("help", help), ("quit", quit), ("exit", quit), ("new", new),
    ("show", outline), ("dot", graph), ("goals", goals), ("rules", rules), ("apply", apply),
    ("close", close)].lookup word

/-- The answer of the console to a line. -/
inductive Answer where
  | say (text : String)
  | complain (text : String)
  | leave
deriving DecidableEq

namespace Console

/-- The list of commands. -/
def helpText : String :=
  "\n".intercalate
    ["commands:",
      "  new <formula>                    start proving <formula>",
      "  show                             print the proof tree",
      "  dot                              print the proof tree in Graphviz DOT",
      "  goals                            list open goals",
      "  rules <node>                     list rules applicable at <node>",
      "  apply <rule> <goal> [<source>]   expand <source> (default: nearest formula) at <goal>",
      "  close <node> <node> [<subst>]    close below two complementary nodes, " ++
        "e.g. `close 3 5 X_1/a`",
      "  help                             show this message",
      "  quit                             leave"]

/-- The first word of a text and what follows it. -/
def splitWord (text : String) : String × String :=
  let (word, rest) := Text.firstWord text.toList
  (String.ofList word, String.ofList rest)

/-- The node number that a word stands for. -/
def nodeOf (word : String) : Except String NodeId :=
  if word = "" then .error "missing node id"
  else
    match NodeId.parse word with
    | .ok id => .ok id
    | .error e => .error ("invalid node id `" ++ word ++ "`: " ++ e.message)

/-- The rule that a word stands for. -/
def ruleOf (word : String) : Except String Rule :=
  match Rule.ofName? word with
  | some rule => .ok rule
  | none =>
    .error ("unknown rule `" ++ word ++ "`, expected one of " ++
      ", ".intercalate (Rule.all.map Rule.name))

/-- The session in progress. -/
def current (session : Option Session) : Except String Session :=
  match session with
  | some s => .ok s
  | none => .error "no proof in progress, start one with `new <formula>`"

/-- A proof error in words. An error in a text is shown in the text, which came from `origin`. -/
def explain (text origin : String) : ProofError → String
  | .language e => e.render text (some origin)
  | e => e.message ++ " (" ++ e.category.name ++ ")"

/-- Whether a session is proved, or how many goals are open. -/
def status (s : Session) : String :=
  if s.isProved then "proved" else s.tableau.openGoals.length.repr ++ " open goal(s)"

/-- The line of an open goal: the nearest entry above it. -/
def goalLine (s : Session) (goal : NodeId) : String :=
  match s.tableau.nearest? goal with
  | some entry => goal.repr ++ ": below " ++ entry.id.repr ++ " " ++ entry.signed.render
  | none => goal.repr

/-- The names of some rules. -/
def ruleList (rules : List Rule) : String :=
  if rules = [] then "no rule applies" else ", ".intercalate (rules.map Rule.name)

/-! ### Commands -/

/-- Starts a proof of the formula in a text. -/
def new (text : String) : Except String (Except String String × Session) :=
  match Session.start text with
  | .ok s => .ok (.ok s.tableau.outline, s)
  | .error e => .error (explain text "<formula>" e)

/-- Lists the rules that apply at a node. -/
def rules (session : Option Session) (arguments : String) : Except String String := do
  let id ← nodeOf (splitWord arguments).1
  let s ← current session
  (s.applicableRules id).map ruleList |>.mapError (explain arguments "<node>")

/-- Applies a rule at a goal, to the node that a third word stands for or to the nearest entry. -/
def apply (session : Option Session) (arguments : String) :
    Except String (Except String String × Session) := do
  let (ruleWord, rest) := splitWord arguments
  let rule ← ruleOf ruleWord
  let (goalWord, rest) := splitWord rest
  let goal ← nodeOf goalWord
  let s ← current session
  let sourceWord := (splitWord rest).1
  let (result, s) ←
    if sourceWord = "" then .ok (s.applyRuleNearest rule goal)
    else (nodeOf sourceWord).map (s.applyRule rule goal)
  let text := result.map fun goals => "new goals: " ++ NodeId.list goals
  return (text.mapError (explain rest "<source>"), s)

/-- Closes the goals below two nodes. -/
def close (session : Option Session) (arguments : String) :
    Except String (Except String String × Session) := do
  let (aWord, rest) := splitWord arguments
  let (bWord, text) := splitWord rest
  let a ← nodeOf aWord
  let b ← nodeOf bWord
  let s ← current session
  let (result, s) := s.close a b text
  let reply := result.map fun closure =>
    "closed goals " ++ NodeId.list closure.closed ++ " below node " ++ closure.ancestor.repr ++
      (if s.isProved then "\nproved" else "")
  return (reply.mapError (explain text "<substitution>"), s)

/-- The answer to a command that leaves the session as it is. -/
def reading (session : Option Session) (result : Except String String) :
    Answer × Option Session :=
  match result with
  | .ok text => (.say text, session)
  | .error text => (.complain text, session)

/-- The answer to a command that works on the session: the command is not understood, or its result
comes with a session. -/
def changing (session : Option Session)
    (outcome : Except String (Except String String × Session)) : Answer × Option Session :=
  match outcome with
  | .ok (result, s) => reading (some s) result
  | .error text => (.complain text, session)

/-- The answer to a line, and the session afterwards. -/
def execute (session : Option Session) (line : String) : Answer × Option Session :=
  let (word, rest) := splitWord line
  match Verb.ofWord? word with
  | some .nothing => (.say "", session)
  | some .help => (.say helpText, session)
  | some .quit => (.leave, session)
  | some .new => changing session (new rest)
  | some .outline => reading session ((current session).map fun s => s.tableau.outline ++ status s)
  | some .graph => reading session ((current session).map (·.tableau.graph))
  | some .goals =>
    reading session ((current session).map fun s =>
      "\n".intercalate (s.tableau.openGoals.map (goalLine s)))
  | some .rules => reading session (rules session rest)
  | some .apply => changing session (apply session rest)
  | some .close => changing session (close session rest)
  | none => (.complain ("unknown command `" ++ word ++ "`, try `help`"), session)

end Console

end SignedTableaux
