import SignedTableaux.Formula.Parser
import SignedTableaux.Text.Position

/-!
# Syntax errors

A text that cannot be read is reported at the furthest place the parser reached, with all that
was wanted there.

## Main definitions

* `SyntaxError` — a text, the place of the error in it, and what was wanted there
* `SyntaxError.summary`, `SyntaxError.message` — what was wanted, alone and under the line in
  question
* `parseWith` — reads a text with a parser
-/

namespace SignedTableaux

/-- A text that cannot be read. -/
structure SyntaxError where
  text : String
  /-- The byte offset of the furthest place reached. -/
  offset : Nat
  /-- What was wanted there. -/
  wanted : List Construct
deriving DecidableEq

/-- Some alternatives with commas between them and `or` before the last. -/
def alternatives : List String → String
  | [] => ""
  | [a] => a
  | [a, b] => a ++ " or " ++ b
  | as => ", ".intercalate as.dropLast ++ ", or " ++ as.getLastD ""

namespace SyntaxError

/-- The byte at which the error is reported. -/
def span (e : SyntaxError) : Span :=
  ⟨e.offset, e.offset + 1⟩

/-- What was wanted. -/
def summary (e : SyntaxError) : String :=
  "expected " ++ alternatives (e.wanted.map Construct.label)

/-- The marker line: blanks, with tabs for tabs, and a pointer below the given column. -/
def underline (line : List Char) (column : Nat) : String :=
  String.ofList ((line.take (column - 1)).map fun c => if c = '\t' then c else ' ') ++ "^---"

/-- The line in question with a pointer to the place of the error, and what was wanted there. -/
def message (e : SyntaxError) : String :=
  let place := Text.placeOf e.text.toList e.offset
  let line := (place.before ++ place.after).filter (· ≠ '\r')
  let indent := Text.gutter place.line
  "\n".intercalate
    [indent ++ "--> " ++ place.line.repr ++ ":" ++ place.column.repr,
      indent ++ " |",
      place.line.repr ++ " | " ++ String.ofList line,
      indent ++ " | " ++ underline line place.column,
      indent ++ " |",
      indent ++ " = " ++ e.summary]

end SyntaxError

/-- The byte offset at which the last `left` lexemes of a text start. -/
def offsetWithLeft (text : String) (lexemes : List Lexeme) (left : Nat) : Nat :=
  match lexemes.drop (lexemes.length - left) with
  | [] => text.utf8ByteSize
  | lexeme :: _ => lexeme.start

/-- The error of a failed reading of a text. -/
def syntaxErrorOf (text : String) (lexemes : List Lexeme) (misses : List Miss) : SyntaxError :=
  match furthest misses with
  | none => ⟨text, 0, []⟩
  | some (left, wanted) => ⟨text, offsetWithLeft text lexemes left, wanted⟩

/-- Reads a text with a parser of its tokens. -/
def parseWith {α : Type} (p : Parser α) (text : String) : Except SyntaxError α :=
  let lexemes := scan text
  match p (lexemes.map Lexeme.token) with
  | ⟨some (a, _), _⟩ => .ok a
  | ⟨none, misses⟩ => .error (syntaxErrorOf text lexemes misses)

end SignedTableaux
