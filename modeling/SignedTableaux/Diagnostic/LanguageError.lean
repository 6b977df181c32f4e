import SignedTableaux.Diagnostic.SyntaxError

/-!
# Language errors

The causes for which a formula, a term or a substitution text is refused.

## Main definitions

* `LanguageError` — the causes
* `LanguageError.span` — the bytes in question
* `LanguageError.message` — the wording
* `LanguageError.syntaxError?` — the syntax error behind it, if there is one
-/

namespace SignedTableaux

/-- The causes for which a text is refused. -/
inductive LanguageError where
  /-- The text is no formula, or no term. -/
  | unreadable (e : SyntaxError)
  /-- An entry of a substitution is not of the form `name/term`. -/
  | malformedEntry (entry : String) (span : Span)
  /-- An entry of a substitution binds something that is no name. -/
  | invalidName (name entry : String) (span : Span)
  /-- The image of an entry of a substitution is no term. -/
  | invalidTerm (entry : String) (span : Span) (e : SyntaxError)
  /-- Two entries of a substitution bind the same name. -/
  | duplicateBinding (name : String) (span : Span)
  /-- A construct stands where the grammar puts none. -/
  | unexpectedConstruct (construct : String) (span : Span)
deriving DecidableEq

namespace LanguageError

/-- The bytes in question. -/
def span : LanguageError → Span
  | .unreadable e => e.span
  | .malformedEntry _ span => span
  | .invalidName _ _ span => span
  | .invalidTerm _ span _ => span
  | .duplicateBinding _ span => span
  | .unexpectedConstruct _ span => span

/-- The syntax error behind it, if there is one. -/
def syntaxError? : LanguageError → Option SyntaxError
  | .unreadable e => some e
  | .invalidTerm _ _ e => some e
  | _ => none

/-- The wording of a cause. -/
def message : LanguageError → String
  | .unreadable e => "Parsing failed: Pest parsing error: " ++ e.message
  | .malformedEntry entry _ =>
    "Malformed substitution entry '" ++ entry ++ "': expected `name/term`"
  | .invalidName name entry _ =>
    "Invalid variable name '" ++ name ++ "' in substitution entry '" ++ entry ++ "'"
  | .invalidTerm entry _ e =>
    "Invalid term in substitution entry '" ++ entry ++ "': Pest parsing error: " ++ e.message
  | .duplicateBinding name _ => "Variable '" ++ name ++ "' is bound more than once in substitution"
  | .unexpectedConstruct construct span =>
    "Pest rule mismatch: unexpected " ++ construct ++ " at (" ++ span.start.repr ++ ", " ++
      span.stop.repr ++ ")"

end LanguageError

end SignedTableaux
