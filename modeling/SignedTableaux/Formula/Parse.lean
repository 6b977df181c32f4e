import SignedTableaux.Diagnostic.SyntaxError
import SignedTableaux.Formula.Grammar
import SignedTableaux.Term.Binding

/-!
# Reading formulas and terms

## Main definitions

* `Formula.parse` — the formula written in a text; its variables are those its quantifiers bind
* `Term.parse` — the term written in a text, given the names that are variables
* `isIdentifier` — whether a text is a name
-/

namespace SignedTableaux

/-- The formula written in a text. -/
def Formula.parse (text : String) : Except SyntaxError Term :=
  (parseWith Grammar.wholeFormula text).map (Term.bindNames [])

/-- The term written in a text, where the names in `vars` are variables. -/
def Term.parse (text : String) (vars : List String) : Except SyntaxError Term :=
  (parseWith Grammar.wholeTerm text).map (Term.bindNames vars)

/-- Whether a text is a name, apart from separators around it. -/
def isIdentifier (text : String) : Bool :=
  (parseWith Grammar.wholeName text).isOk

end SignedTableaux
