/-!
# Blanks, trimming and words

Typed lines and substitution texts are cut at blanks, the characters with the Unicode property
`White_Space`. Formulas themselves separate tokens by the four blanks of `Token.isSeparator`
only.

## Main definitions

* `Text.isBlank` — the 25 blank characters
* `Text.trimStart`, `Text.trimEnd`, `Text.trim` — a text without the blanks at its ends
* `Text.firstWord` — the first word of a text, and what follows it
-/

namespace SignedTableaux.Text

/-- The ranges of code points with the property `White_Space`, both ends included. -/
def blankRanges : List (Nat × Nat) :=
  [(0x09, 0x0D), (0x20, 0x20), (0x85, 0x85), (0xA0, 0xA0), (0x1680, 0x1680), (0x2000, 0x200A),
    (0x2028, 0x2029), (0x202F, 0x202F), (0x205F, 0x205F), (0x3000, 0x3000)]

/-- Whether a character has the property `White_Space`. -/
def isBlank (c : Char) : Bool :=
  blankRanges.any fun (first, last) => first ≤ c.toNat && c.toNat ≤ last

/-- The characters from the first one that is not blank. -/
def trimStart (cs : List Char) : List Char :=
  cs.dropWhile isBlank

/-- The characters up to the last one that is not blank. -/
def trimEnd (cs : List Char) : List Char :=
  (cs.reverse.dropWhile isBlank).reverse

/-- The characters between the blanks at both ends. -/
def trim (cs : List Char) : List Char :=
  trimEnd (trimStart cs)

/-- The first word, without the blanks before it, and the text after it, without the blanks between.
Both are empty when there is no word. -/
def firstWord (cs : List Char) : List Char × List Char :=
  let start := trimStart cs
  (start.takeWhile (!isBlank ·), trimStart (start.dropWhile (!isBlank ·)))

end SignedTableaux.Text
