/-!
# Node numbers

The nodes of a tableau are numbered from zero. A number is written in decimal, perhaps with
number signs before it as in `#3`, and must be below `2 ^ 64`.

## Main definitions

* `NodeId`, `NodeId.list` — node numbers, and several of them in words
* `NodeId.parse` — the number written in a text
* `NodeIdError` — why a text is no node number
-/

namespace SignedTableaux

/-- The number of a node. -/
abbrev NodeId : Type := Nat

/-- Node numbers with commas between them. -/
def NodeId.list (ids : List NodeId) : String :=
  ", ".intercalate (ids.map Nat.repr)

/-- Why a text is no node number. -/
inductive NodeIdError where
  | empty
  | invalidDigit
  | tooLarge
deriving DecidableEq

/-- The wording of a cause. -/
def NodeIdError.message : NodeIdError → String
  | .empty => "cannot parse integer from empty string"
  | .invalidDigit => "invalid digit found in string"
  | .tooLarge => "number too large to fit in target type"

namespace NodeId

/-- Appends decimal digits to a number; the first character that is no digit, or that makes the
number too large, is at fault. -/
def appendDigits (n : Nat) : List Char → Except NodeIdError NodeId
  | [] => .ok n
  | c :: cs =>
    if c.isDigit then
      let m := 10 * n + (c.toNat - '0'.toNat)
      if m < 2 ^ 64 then appendDigits m cs else .error .tooLarge
    else .error .invalidDigit

/-- The number written in decimal, perhaps with a plus sign before it. -/
def ofDecimal : List Char → Except NodeIdError NodeId
  | [] => .error .empty
  | '+' :: cs => if cs = [] then .error .invalidDigit else appendDigits 0 cs
  | cs => appendDigits 0 cs

/-- The node number written in a text. -/
def parse (text : String) : Except NodeIdError NodeId :=
  ofDecimal (text.toList.dropWhile (· = '#'))

end NodeId

end SignedTableaux
