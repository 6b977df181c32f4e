/-!
# Positions in a text

Places in a text are byte offsets of its UTF-8 form. A place is shown by the number of its line
and of its column there, both from one, and by the text of the line; a line ends with a line
feed.

## Main definitions

* `Span` — a range of bytes
* `Text.beforeByte`, `Text.fromByte` — the characters on either side of an offset
* `Place`, `Text.placeOf` — line, column and line text of an offset
-/

namespace SignedTableaux

/-- The bytes from `start` up to but not including `stop`. -/
structure Span where
  start : Nat
  stop : Nat
deriving DecidableEq

/-- The part of a span that lies in a text of the given number of bytes. -/
def Span.clamp (span : Span) (bytes : Nat) : Span :=
  let stop := min span.stop bytes
  ⟨min span.start stop, stop⟩

/-- A place in a text. -/
structure Place where
  /-- The number of the line, from one. -/
  line : Nat
  /-- The characters of the line before the place. -/
  before : List Char
  /-- The characters of the line from the place on. -/
  after : List Char
deriving DecidableEq

/-- The number of the column, from one. -/
def Place.column (p : Place) : Nat :=
  p.before.length + 1

namespace Text

/-- The number of bytes of some characters. -/
def byteLength (cs : List Char) : Nat :=
  cs.foldr (fun c n => c.utf8Size + n) 0

/-- The characters that start before a byte offset. -/
def beforeByte (offset : Nat) : List Char → List Char
  | [] => []
  | c :: cs => if offset = 0 then [] else c :: beforeByte (offset - c.utf8Size) cs

/-- The characters that start at a byte offset or later. -/
def fromByte (offset : Nat) : List Char → List Char
  | [] => []
  | c :: cs => if offset = 0 then c :: cs else fromByte (offset - c.utf8Size) cs

/-- The place of a byte offset. -/
def placeOf (text : List Char) (offset : Nat) : Place :=
  let before := beforeByte offset text
  { line := before.count '\n' + 1
    before := (before.reverse.takeWhile (· ≠ '\n')).reverse
    after := (fromByte offset text).takeWhile (· ≠ '\n') }

/-- As many spaces as a number has digits. -/
def gutter (n : Nat) : String :=
  String.ofList (List.replicate n.repr.length ' ')

end Text

end SignedTableaux
