import SignedTableaux.Formula.Parser

/-!
# The grammar of formulas

Negation binds tightest, then conjunction and disjunction, which group to the left, then
implication, which groups to the right. The body of a quantifier reaches as far as possible. A
name may be followed by arguments in parentheses; it is a predicate among operands and a
function symbol among arguments. Here no name is a variable yet: `Term.bindNames` finds those.

## Main definitions

* `Grammar.term`, `Grammar.operand` — terms and operands of at most a given nesting depth
* `Grammar.formulaOf` — chains of connectives over operands
* `Grammar.wholeFormula`, `Grammar.wholeTerm`, `Grammar.wholeName` — texts that are just that
-/

namespace SignedTableaux.Grammar

open SignedTableaux.Parser

/-- No arguments, where the closing parenthesis stands in the place of the first one. -/
def noArguments : Parser (List Term) := do
  note [.identifier]
  token .rightParen
  return []

/-- Arguments with commas between them, and the closing parenthesis. -/
def someArguments (argument : Parser Term) : Parser (List Term) := do
  let (a, as) ← chain .comma argument argument
  token .rightParen
  return a :: as

/-- Arguments in parentheses, perhaps none, or no parentheses at all. -/
def arguments (argument : Parser Term) : Parser (List Term) :=
  fun
  | .leftParen :: .rightParen :: ts => noArguments (.rightParen :: ts)
  | .leftParen :: ts => someArguments argument ts
  | ts => (do note [.argumentList]; return [] : Parser (List Term)) ts

/-- A term whose arguments nest less than `depth` deep. -/
def term : (depth : Nat) → Parser Term
  | 0 => fail
  | depth + 1 => do
    let f ← name
    let args ← arguments (term depth)
    return .fn f args

/-- A chain of conjuncts. The first is wanted as a conjunction, the others as operands. -/
def conjunctionOf (operand : List Construct → Parser Term) : Parser Term := do
  let (t, ts) ← chain (.connective .and) (operand [.conjunction])
    (operand [.identifier, .negation, .quantified])
  return ts.foldl (.binary .and) t

/-- A chain of disjuncts. -/
def disjunctionOf (operand : List Construct → Parser Term) : Parser Term := do
  let (t, ts) ← chain (.connective .or) (conjunctionOf operand) (conjunctionOf operand)
  return ts.foldl (.binary .or) t

/-- Groups a chain of implications to the right. -/
def implyChain : Term → List Term → Term
  | t, [] => t
  | t, u :: us => .binary .implies t (implyChain u us)

/-- A chain of implications. -/
def formulaOf (operand : List Construct → Parser Term) : Parser Term := do
  let (t, ts) ← chain (.connective .implies) (disjunctionOf operand) (disjunctionOf operand)
  return implyChain t ts

/-- An optional dot. -/
def optionalDot : Parser Unit :=
  fun
  | .dot :: ts => ⟨some ((), ts), []⟩
  | ts => ⟨some ((), ts), []⟩

/-- What follows a negation sign. -/
def negationOf (operand : List Construct → Parser Term) : Parser Term := do
  let t ← operand [.identifier, .negation, .quantified]
  return .not t

/-- What follows a quantifier: the bound name, an optional dot and the body. -/
def quantifiedOf (q : Quantifier) (operand : List Construct → Parser Term) : Parser Term := do
  let x ← name
  optionalDot
  let body ← formulaOf operand
  return .quantified q x body

/-- What follows the name of a predicate. -/
def atomOf (p : String) (argument : Parser Term) : Parser Term := do
  let args ← arguments argument
  return .pred p args

/-- What follows an opening parenthesis among operands. -/
def parenthesizedOf (operand : List Construct → Parser Term) : Parser Term := do
  let t ← formulaOf operand
  token .rightParen
  return t

/-- An operand that nests less than `depth` deep: a negation, a quantified formula, an atom, or a
formula in parentheses. Where none starts, `wanted` is reported. -/
def operand : (depth : Nat) → (wanted : List Construct) → Parser Term
  | 0, _ => fail
  | depth + 1, wanted => fun
    | .not :: ts => negationOf (operand depth) ts
    | .quantifier q :: ts => quantifiedOf q (operand depth) ts
    | .name p :: ts => atomOf p (term depth) ts
    | .leftParen :: ts => parenthesizedOf (operand depth) ts
    | ts => want wanted ts

/-- A parser that must take all tokens. -/
def whole {α : Type} (p : Parser α) : Parser α := do
  let a ← p
  finish
  return a

/-- A formula and nothing else. Nesting takes a token a level, so the number of tokens bounds it. -/
def wholeFormula : Parser Term :=
  fun ts => whole (formulaOf (operand (ts.length + 1))) ts

/-- A term and nothing else. -/
def wholeTerm : Parser Term :=
  fun ts => whole (term (ts.length + 1)) ts

/-- A name and nothing else. -/
def wholeName : Parser String :=
  whole name

end SignedTableaux.Grammar
