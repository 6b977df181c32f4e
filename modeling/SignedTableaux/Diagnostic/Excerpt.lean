import SignedTableaux.Diagnostic.LanguageError
import SignedTableaux.Diagnostic.Window

/-!
# Excerpts

A language error is shown with the line of the text it is about, marked below the bytes in
question.

## Main definitions

* `lineRow`, `markRow` — the line of a span, and the marks and the label below it
* `excerpt` — a title and these rows
* `LanguageError.render` — the excerpt of an error
-/

namespace SignedTableaux

namespace Text

/-- Whether an offset has no line of its own: it is the end of a text that is empty or ends with a
line feed. -/
def isPastLastLine (text : List Char) (offset : Nat) : Bool :=
  fromByte offset text = [] && (text.getLast?.all (· == '\n'))

/-- Writes some characters over a row from a column on. Columns before it that the row does not have
yet become spaces. -/
def overwrite (row : List Char) (column : Nat) (cs : List Char) : List Char :=
  row.take column ++ List.replicate (column - row.length) ' ' ++ cs ++ row.drop (column + cs.length)

end Text

/-- The line that names an origin, a line and a column. -/
def originLine (indent : String) (origin : String) (line column : Nat) : String :=
  indent ++ "-->" ++ (if origin = "" then "" else " " ++ origin) ++ ":" ++ line.repr ++ ":" ++
    column.repr

/-- The sign that something is left out. -/
def ellipsis : List Char :=
  ['.', '.', '.']

/-- The row with a line of the given number, in which the text starts at column `code`. -/
def lineRow (number code : Nat) (line : List Char) (w : Window) : List Char :=
  let expanded := Text.expandTabs line
  let shown := w.view expanded
  let row := Text.overwrite (number.repr ++ " |").toList code shown
  let row := if w.cutsStart then Text.overwrite row code ellipsis else row
  if w.cutsEnd (Text.byteLength expanded) then
    Text.overwrite row (code + shown.length - ellipsis.length) ellipsis
  else row

/-- The row below a line, with carets from column `start` to column `stop` of it and a label behind
them. A caret that belongs before the window stands that much further left, if need be in the place
of the bar. -/
def markRow (indent : String) (code start stop : Nat) (label : String) (w : Window) : List Char :=
  let row := Text.overwrite (indent ++ " |").toList (code + (stop + 1 - w.first)) label.toList
  (List.range' start (stop - start)).foldl
    (fun row column => Text.overwrite row (code + column - w.first) ['^']) row

/-- A title and the line at a span of a text, marked with carets and a label below the span. A text
without a line at the span is shown without one. -/
def excerpt (text : List Char) (origin : Option String) (title : String) (span : Span)
    (label : String) : String :=
  let span := span.clamp (Text.byteLength text)
  if Text.isPastLastLine text span.start then
    "\n".intercalate
      (["error: " ++ title] ++ (origin.map (originLine "" · 1 1)).toList ++ [" |", " |"])
  else
    let place := Text.placeOf text span.start
    let line := place.before ++ place.after
    let marked := Text.beforeByte (span.stop - span.start) (Text.fromByte span.start text)
    let start := Text.width place.before
    let stop := start + max 1 (Text.width marked)
    let w := Window.ofLine (Window.roomFor place.line) line start stop label.utf8ByteSize
    let indent := Text.gutter place.line
    let code := indent.length + 3
    "\n".intercalate
      (["error: " ++ title] ++
        (origin.map (originLine indent · place.line place.column)).toList ++
        [indent ++ " |",
          String.ofList (lineRow place.line code line w),
          String.ofList (markRow indent code start stop label w),
          indent ++ " |"])

/-- An error shown in the text it is about; `origin` tells where the text is from. -/
def LanguageError.render (e : LanguageError) (text : String) (origin : Option String) : String :=
  let mark := excerpt text.toList origin
  match e with
  | .unreadable e =>
    mark "syntax error" e.span ("expected " ++ ", ".intercalate (e.wanted.map Construct.label))
  | .malformedEntry _ span => mark "malformed substitution entry" span "expected `name/term`"
  | .invalidName name _ span =>
    mark ("invalid variable name `" ++ name ++ "`") span "substitutions bind plain identifiers"
  | .invalidTerm _ span e => mark "invalid term in substitution" span e.summary
  | .duplicateBinding name span =>
    mark ("variable `" ++ name ++ "` is bound more than once") span "duplicate binding"
  | .unexpectedConstruct .. => "error: " ++ e.message

end SignedTableaux
