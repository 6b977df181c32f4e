import SignedTableaux.Diagnostic.LanguageError
import SignedTableaux.Formula.Parse
import SignedTableaux.Substitution.Basic
import SignedTableaux.Text.Blank

/-!
# Reading substitutions

A substitution is written as entries `name/term` with bars between them; blanks around entries,
names and terms do not count, and a blank text is the empty substitution. Entries are read from
the left, and the first one at fault is reported with the bytes it takes up.

## Main definitions

* `Substitution.Entry`, `Substitution.entries` — the pieces of a text between its bars
* `Substitution.Entry.parse` — the name and the term of an entry
* `Substitution.parse` — the substitution written in a text
-/

namespace SignedTableaux.Substitution

/-- A piece of a substitution text, with the bytes it takes up. -/
structure Entry where
  chars : List Char
  span : Span

/-- An entry without the blanks at its ends. -/
def Entry.text (entry : Entry) : String :=
  String.ofList (Text.trim entry.chars)

/-- The entries for some pieces, of which the first starts at byte `start` and each next one after a
bar. -/
def entriesFrom (start : Nat) : List (List Char) → List Entry
  | [] => []
  | piece :: pieces =>
    let stop := start + Text.byteLength piece
    ⟨piece, ⟨start, stop⟩⟩ :: entriesFrom (stop + 1) pieces

/-- The entries of a text: what stands between its bars. -/
def entries (text : List Char) : List Entry :=
  entriesFrom 0 (text.splitOn '|')

/-- The name that an entry binds and its image, where the names in `vars` are variables. -/
def Entry.parse (entry : Entry) (vars : List String) : Except LanguageError (String × Term) :=
  match entry.chars.splitOn '/' with
  | [name, image] =>
    let name := String.ofList (Text.trim name)
    if isIdentifier name then
      match Term.parse (String.ofList (Text.trim image)) vars with
      | .ok t => .ok (name, t)
      | .error e => .error (.invalidTerm entry.text entry.span e)
    else .error (.invalidName name entry.text entry.span)
  | _ => .error (.malformedEntry entry.text entry.span)

/-- Adds the bindings of some entries to a substitution that has none of their names. -/
def addEntries (vars : List String) (σ : Substitution) :
    List Entry → Except LanguageError Substitution
  | [] => .ok σ
  | entry :: rest =>
    match entry.parse vars with
    | .error e => .error e
    | .ok (name, image) =>
      if name ∈ σ.domain then .error (.duplicateBinding name entry.span)
      else addEntries vars (σ.insert name image) rest

/-- The substitution written in a text, where the names in `vars` are variables of its images. -/
def parse (text : String) (vars : List String) : Except LanguageError Substitution :=
  if Text.trim text.toList = [] then .ok ∅
  else addEntries vars ∅ (entries text.toList)

end SignedTableaux.Substitution
