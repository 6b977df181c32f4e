import SignedTableaux.Console.Basic

/-!
# Transcripts

A whole dialogue with the console: a prompt, then for each line an answer and the next prompt.
Answers and complaints go to different outputs. Input that is not UTF-8 ends the dialogue at
that line.

## Main definitions

* `Turn`, `Console.turn` — what a line of bytes leads to
* `Console.linesOf` — the lines of some bytes
* `Transcript`, `Console.transcript` — what a dialogue on some input puts out
-/

namespace SignedTableaux

/-- What a line leads to. -/
inductive Turn where
  /-- The dialogue goes on with a session, after some output and some complaints. -/
  | next (session : Option Session) (output complaints : String)
  /-- The dialogue ends with some complaints and an exit code. -/
  | stop (complaints : String) (exitCode : Nat)
deriving DecidableEq

/-- What a dialogue put out. -/
structure Transcript where
  output : String
  complaints : String
  exitCode : Nat
deriving DecidableEq

namespace Console

/-- The prompt. -/
def prompt : String :=
  "> "

/-- What an answer puts on the output: its text, if any, without the blanks at its end. -/
def spoken : Answer → String
  | .say "" => ""
  | .say text => String.ofList (Text.trimEnd text.toList) ++ "\n"
  | _ => ""

/-- What an answer puts among the complaints. -/
def complained : Answer → String
  | .complain text => "error: " ++ text ++ "\n"
  | _ => ""

/-- What is put among the complaints for input that is not UTF-8. -/
def unreadableInput : String :=
  "Error: failed to read from stdin\n\nCaused by:\n    stream did not contain valid UTF-8\n"

/-- What a line of bytes leads to. Blanks around the line do not count. -/
def turn (session : Option Session) (bytes : List UInt8) : Turn :=
  match String.fromUTF8? ⟨bytes.toArray⟩ with
  | none => .stop unreadableInput 1
  | some line =>
    match execute session (String.ofList (Text.trim line.toList)) with
    | (.leave, _) => .stop "" 0
    | (answer, session) => .next session (spoken answer ++ prompt) (complained answer)

/-- The lines of some bytes, each without its line feed; the last may lack one. -/
def linesOf (bytes : List UInt8) : List (List UInt8) :=
  match (bytes.splitOn 10).reverse with
  | [] :: lines => lines.reverse
  | lines => lines.reverse

/-- The dialogue over some lines, given what was put out before. -/
def dialogue (session : Option Session) (output complaints : String) :
    List (List UInt8) → Transcript
  | [] => ⟨output, complaints, 0⟩
  | line :: lines =>
    match turn session line with
    | .next session output' complaints' =>
      dialogue session (output ++ output') (complaints ++ complaints') lines
    | .stop complaints' exitCode => ⟨output, complaints ++ complaints', exitCode⟩

/-- The dialogue on some input. -/
def transcript (input : List UInt8) : Transcript :=
  dialogue none prompt "" (linesOf input)

end Console

end SignedTableaux
