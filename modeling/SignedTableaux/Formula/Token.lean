import SignedTableaux.Term.Basic

/-!
# Tokens

A formula text is cut into names, signs and punctuation. Names are read as long as possible, a
space, tab, carriage return or line feed separates, and a character that belongs to no token
becomes a `stray` one, so that cutting never fails.

## Main definitions

* `Token` — names, quantifiers, connectives, punctuation, strays
* `Lexeme` — a token with the byte offset it starts at
* `scan` — the lexemes of a text
-/

namespace SignedTableaux

/-- The units that formulas are written in. -/
inductive Token where
  | name (text : String)
  | quantifier (q : Quantifier)
  | not
  | connective (op : Connective)
  | leftParen
  | rightParen
  | comma
  | dot
  /-- A text that is no token of a formula. -/
  | stray (text : String)
deriving DecidableEq

/-- A token and the byte offset it starts at. -/
structure Lexeme where
  token : Token
  start : Nat
deriving DecidableEq

namespace Token

/-- The characters that separate tokens. -/
def isSeparator (c : Char) : Bool :=
  c == ' ' || c == '\t' || c == '\r' || c == '\n'

/-- The characters of names: ASCII letters, digits and the underscore. -/
def isNameChar (c : Char) : Bool :=
  c.isAlphanum || c == '_'

/-- The token that a run of name characters forms: a keyword, a name, or, if it starts with a digit,
a stray. -/
def ofWord (word : List Char) : Token :=
  if word = "forall".toList then .quantifier .universal
  else if word = "exists".toList then .quantifier .existential
  else if word.head?.any Char.isDigit then .stray (String.ofList word)
  else .name (String.ofList word)

/-- The token of a character that stands for itself. -/
def ofSign (c : Char) : Token :=
  match c with
  | '~' | '!' | '¬' => .not
  | '&' | '∧' => .connective .and
  | '|' | '∨' => .connective .or
  | '→' => .connective .implies
  | '∀' => .quantifier .universal
  | '∃' => .quantifier .existential
  | '(' => .leftParen
  | ')' => .rightParen
  | ',' => .comma
  | '.' => .dot
  | c => .stray (String.singleton c)

end Token

/-- The lexeme of a run of name characters, or none if it is empty. -/
def wordLexeme (start : Nat) (word : List Char) : List Lexeme :=
  if word = [] then [] else [⟨.ofWord word, start⟩]

/-- The lexemes of `word` followed by the given characters, where `word` is a run of name characters
read so far and starts at byte `start`. -/
def scanFrom (start : Nat) (word : List Char) : List Char → List Lexeme
  | [] => wordLexeme start word
  | c :: cs =>
    if Token.isNameChar c then scanFrom start (word ++ [c]) cs
    else
      let here := start + word.length
      wordLexeme start word ++
        if Token.isSeparator c then scanFrom (here + 1) [] cs
        else match c, cs with
          | '-', '>' :: cs => ⟨.connective .implies, here⟩ :: scanFrom (here + 2) [] cs
          | c, cs => ⟨.ofSign c, here⟩ :: scanFrom (here + c.utf8Size) [] cs

/-- The lexemes of a text. -/
def scan (text : String) : List Lexeme :=
  scanFrom 0 [] text.toList

end SignedTableaux
