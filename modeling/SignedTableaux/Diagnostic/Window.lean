import SignedTableaux.Text.Blank
import SignedTableaux.Text.Position

/-!
# The part of a line that is shown

A line is shown with its tabs expanded. A long run of blanks at its start says little and is cut
to a fixed rest. A line that is still too wide is shown around what is marked in it.

## Main definitions

* `Text.expandTabs`, `Text.indentation`, `Text.width` — a line as it is shown, and its measures
* `Window` — a range of columns, and the room for them
* `Window.roomFor` — the room for the text of a line
* `Window.ofLine` — the columns of a line that are shown
-/

namespace SignedTableaux

namespace Text

/-- Whether a character is a control character, which takes no room. -/
def isControl (c : Char) : Bool :=
  c.toNat < 0x20 || 0x7F ≤ c.toNat && c.toNat < 0xA0

/-- The room that some characters take. -/
def width (cs : List Char) : Nat :=
  cs.countP (!isControl ·)

/-- A line as it is shown, with four spaces for a tab. All else stays, also a carriage return before
the line feed. -/
def expandTabs (cs : List Char) : List Char :=
  cs.flatMap fun c => if c = '\t' then [' ', ' ', ' ', ' '] else [c]

/-- The number of columns before the first character that is not blank; a line of blanks has no
indentation. -/
def indentation (line : List Char) : Nat :=
  if line.all isBlank then 0 else (expandTabs (line.takeWhile isBlank)).length

end Text

/-- The columns from `first` up to but not including `last`, where there is room for `room` of
them. -/
structure Window where
  room : Nat
  first : Nat
  last : Nat
deriving DecidableEq

namespace Window

/-- The most columns of a row. -/
def rowWidth : Nat :=
  140

/-- The columns of a row that are left for the text of the line with the given number: the number
before it is taken to be as wide as that of the following line, and a bar between two spaces
separates the two. -/
def roomFor (number : Nat) : Nat :=
  rowWidth - ((number + 1).repr.length + 3)

/-- The room on either side of what is to be seen, where an ellipsis may stand. -/
def margin : Nat :=
  6

/-- The most columns of indentation, beyond the margin, that are shown in full. -/
def maxIndentation : Nat :=
  20

/-- The columns of indentation, beyond the margin, that are left of a longer one. -/
def keptIndentation : Nat :=
  16

/-- The window that starts at a column and takes all the room. -/
def startingAt (room first : Nat) : Window :=
  ⟨room, first, first + room⟩

/-- The columns shown of a line that is marked from column `start` to column `stop`, with a label of
some width behind. All but a long indentation is shown if there is room. Otherwise the window takes
all the room and starts with the text, or with the mark if mark and label do not fit then; as a last
resort it holds the mark alone. -/
def ofLine (room : Nat) (line : List Char) (start stop labelWidth : Nat) : Window :=
  let indentation := Text.indentation line - margin
  let before := start - margin
  let behind := stop + margin
  let behindLabel := stop + labelWidth + 1 + margin
  let first := if indentation > maxIndentation then indentation - keptIndentation else 0
  let last := max (Text.byteLength line) first
  if last - first ≤ room then ⟨room, first, last⟩
  else if behindLabel - indentation ≤ room then startingAt room indentation
  else if behindLabel - before ≤ room then
    startingAt room (before - (room - (behindLabel - before)) / 2)
  else if behind - before ≤ room then
    startingAt room (before - (room - (behind - before)) / 5 * 2)
  else ⟨room, before, behind⟩

/-- Whether something before the window is left out. -/
def cutsStart (w : Window) : Bool :=
  0 < w.first

/-- Whether something behind the window is left out of a line of the given length. -/
def cutsEnd (w : Window) (length : Nat) : Bool :=
  w.last < length && w.first + w.room < length

/-- What is shown of a line whose tabs are expanded. The end is only cut for lack of room. -/
def view (w : Window) (line : List Char) : List Char :=
  let length := Text.byteLength line
  let last := if length - w.first ≤ w.room then length else min length w.last
  (line.drop w.first).take (last - min w.first length)

end Window

end SignedTableaux
