import SignedTableaux.Formula.Token

/-!
# Parsers over tokens

A parser takes tokens from the front of a list and may fail. On the way it notes every place
where something was wanted and not found, also on success; the furthest such place is where a
failure is reported.

## Main definitions

* `Construct` — what may be reported as wanted
* `Miss`, `Outcome`, `Parser` — a place where something was wanted, a result, and a parser
* `Parser.many`, `Parser.chain` — repetition with a separator
* `furthest` — what was wanted at the furthest place
-/

namespace SignedTableaux

/-- The constructs that are reported as wanted, in the order they are listed. -/
inductive Construct where
  | endOfInput
  | identifier
  | conjunction
  | negation
  | quantified
  | argumentList
deriving DecidableEq

namespace Construct

/-- The name a construct is reported by. -/
def label : Construct → String
  | .endOfInput => "EOI"
  | .identifier => "identifier"
  | .conjunction => "conjunction"
  | .negation => "negation"
  | .quantified => "quantified"
  | .argumentList => "argument_list"

/-- All constructs, in the order they are listed. -/
def all : List Construct :=
  [.endOfInput, .identifier, .conjunction, .negation, .quantified, .argumentList]

end Construct

/-- A construct that was wanted and not found when `left` tokens were left. -/
structure Miss where
  left : Nat
  wanted : Construct
deriving DecidableEq

/-- What a parser does: the value with the tokens after it, if it succeeds, and its misses. -/
structure Outcome (α : Type) where
  result : Option (α × List Token)
  misses : List Miss

/-- A parser of values of type `α`. -/
def Parser (α : Type) : Type :=
  List Token → Outcome α

namespace Parser

variable {α β : Type}

/-- Takes nothing. -/
def succeed (a : α) : Parser α :=
  fun ts => ⟨some (a, ts), []⟩

/-- Runs `p`, and on its value and the tokens after it `f`. -/
def andThen (p : Parser α) (f : α → Parser β) : Parser β :=
  fun ts =>
    match p ts with
    | ⟨none, misses⟩ => ⟨none, misses⟩
    | ⟨some (a, rest), misses⟩ =>
      let next := f a rest
      ⟨next.result, misses ++ next.misses⟩

instance : Monad Parser where
  pure := succeed
  bind := andThen

/-- Fails without saying what was wanted. -/
def fail : Parser α :=
  fun _ => ⟨none, []⟩

/-- Notes that some constructs are wanted here, and goes on. -/
def note (wanted : List Construct) : Parser Unit :=
  fun ts => ⟨some ((), ts), wanted.map fun c => ⟨ts.length, c⟩⟩

/-- Fails because some constructs are wanted here. -/
def want (wanted : List Construct) : Parser α := do
  note wanted
  fail

/-- Takes one given token. -/
def token (t : Token) : Parser Unit :=
  fun
  | u :: ts => if u = t then ⟨some ((), ts), []⟩ else ⟨none, []⟩
  | [] => ⟨none, []⟩

/-- Takes a name. -/
def name : Parser String :=
  fun
  | .name x :: ts => ⟨some (x, ts), []⟩
  | ts => want [.identifier] ts

/-- Takes the end of the tokens. -/
def finish : Parser Unit :=
  fun
  | [] => ⟨some ((), []), []⟩
  | ts => want [.endOfInput] ts

/-- Takes as many times `separator` and `item` as there are separators, `n` times at most. -/
def manyUpTo (separator : Token) (item : Parser α) : Nat → Parser (List α)
  | 0 => succeed []
  | n + 1 => fun ts =>
    match ts with
    | [] => ⟨some ([], []), []⟩
    | t :: rest =>
      if t = separator then
        (do
          let a ← item
          let as ← manyUpTo separator item n
          return a :: as : Parser (List α)) rest
      else ⟨some ([], t :: rest), []⟩

/-- Takes as many times `separator` and `item` as there are separators. Each round takes a token, so
the number of tokens bounds the rounds. -/
def many (separator : Token) (item : Parser α) : Parser (List α) :=
  fun ts => manyUpTo separator item ts.length ts

/-- Takes `first`, then items with separators before them. -/
def chain (separator : Token) (first item : Parser α) : Parser (α × List α) := do
  let a ← first
  let as ← many separator item
  return (a, as)

end Parser

/-- The furthest place with a miss: the least number of tokens left, and all that was wanted there,
in the order of listing. -/
def furthest (misses : List Miss) : Option (Nat × List Construct) :=
  (misses.map Miss.left).min?.map fun left =>
    (left, Construct.all.filter fun c => ⟨left, c⟩ ∈ misses)

end SignedTableaux
