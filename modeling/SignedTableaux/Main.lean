import SignedTableaux.Console.Transcript

/-!
# The interactive program

Reads commands from standard input, one a line, and answers each at once.
-/

namespace SignedTableaux.Console

/-- Reads bytes up to a line feed or the end of the input; `line` holds those read so far, the last
one first. The second part tells whether there was a line feed. -/
partial def readLine (input : IO.FS.Stream) (line : List UInt8) : IO (List UInt8 × Bool) := do
  match (← input.read 1).toList with
  | [] => return (line.reverse, false)
  | 10 :: _ => return (line.reverse, true)
  | byte :: _ => readLine input (byte :: line)

/-- Answers lines until the input ends or the dialogue does. -/
partial def serve (input output complaints : IO.FS.Stream) (session : Option Session) :
    IO UInt32 := do
  output.flush
  let (line, isComplete) ← readLine input []
  if line.isEmpty && !isComplete then return 0
  match turn session line with
  | .next session text complaint =>
    complaints.putStr complaint
    output.putStr text
    serve input output complaints session
  | .stop complaint exitCode =>
    complaints.putStr complaint
    return exitCode.toUInt32

end SignedTableaux.Console

/-- The command-line program. -/
def main : IO UInt32 := do
  let output ← IO.getStdout
  output.putStr SignedTableaux.Console.prompt
  SignedTableaux.Console.serve (← IO.getStdin) output (← IO.getStderr) none
