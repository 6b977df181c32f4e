import SignedTableaux.NameSet

/-!
# Terms and formulas

First-order terms and formulas form one type. Nothing forbids a formula as an argument or a
variable as an operand; `Term.isFormula` tells which terms stand for truth values.

## Main definitions

* `Term` — applied symbols, variables, negation, binary connectives and quantification
* `Term.children`, `Term.size` — immediate subterms, and the number of nodes
* `Term.freeVars`, `Term.symbols` — the variables that occur free, and all names that occur
* `Term.validate` — refuses quantifiers that bind the empty name
-/

namespace SignedTableaux

/-- What an applied symbol builds: a formula or an object. -/
inductive SymbolKind where
  | predicate
  | function
deriving DecidableEq

/-- The binary connectives. -/
inductive Connective where
  | and
  | or
  | implies
deriving DecidableEq

/-- The two quantifiers. -/
inductive Quantifier where
  | universal
  | existential
deriving DecidableEq

/-- First-order terms and formulas. -/
inductive Term where
  /-- A predicate or function symbol applied to arguments; a constant has none. -/
  | app (kind : SymbolKind) (symbol : String) (args : List Term)
  | var (name : String)
  | not (arg : Term)
  | binary (op : Connective) (lhs rhs : Term)
  /-- A quantifier that binds the variable `bound` in `body`. -/
  | quantified (q : Quantifier) (bound : String) (body : Term)
deriving Inhabited

namespace Term

mutual

/-- Decides equality of two terms. -/
def decEq : (s t : Term) → Decidable (s = t)
  | .app k f as, .app l g bs =>
    if h : k = l ∧ f = g then
      match decEqList as bs with
      | isTrue h' => isTrue (by rw [h.1, h.2, h'])
      | isFalse h' => isFalse fun e => h' (by injection e)
    else isFalse fun e => h (by injection e with e₁ e₂; exact ⟨e₁, e₂⟩)
  | .var x, .var y =>
    if h : x = y then isTrue (by rw [h]) else isFalse fun e => h (by injection e)
  | .not s, .not t =>
    match decEq s t with
    | isTrue h => isTrue (by rw [h])
    | isFalse h => isFalse fun e => h (by injection e)
  | .binary c s s', .binary d t t' =>
    if h : c = d then
      match decEq s t with
      | isTrue h₁ =>
        match decEq s' t' with
        | isTrue h₂ => isTrue (by rw [h, h₁, h₂])
        | isFalse h₂ => isFalse fun e => h₂ (by injection e)
      | isFalse h₁ => isFalse fun e => h₁ (by injection e)
    else isFalse fun e => h (by injection e)
  | .quantified q x s, .quantified r y t =>
    if h : q = r ∧ x = y then
      match decEq s t with
      | isTrue h' => isTrue (by rw [h.1, h.2, h'])
      | isFalse h' => isFalse fun e => h' (by injection e)
    else isFalse fun e => h (by injection e with e₁ e₂; exact ⟨e₁, e₂⟩)
  | .app .., .var _ | .app .., .not _ | .app .., .binary .. | .app .., .quantified ..
  | .var _, .app .. | .var _, .not _ | .var _, .binary .. | .var _, .quantified ..
  | .not _, .app .. | .not _, .var _ | .not _, .binary .. | .not _, .quantified ..
  | .binary .., .app .. | .binary .., .var _ | .binary .., .not _ | .binary .., .quantified ..
  | .quantified .., .app .. | .quantified .., .var _ | .quantified .., .not _
  | .quantified .., .binary .. => isFalse nofun

/-- Decides equality of two lists of terms. -/
def decEqList : (as bs : List Term) → Decidable (as = bs)
  | [], [] => isTrue rfl
  | [], _ :: _ => isFalse nofun
  | _ :: _, [] => isFalse nofun
  | a :: as, b :: bs =>
    match decEq a b with
    | isTrue h =>
      match decEqList as bs with
      | isTrue h' => isTrue (by rw [h, h'])
      | isFalse h' => isFalse fun e => h' (by injection e)
    | isFalse h => isFalse fun e => h (by injection e)

end

instance : DecidableEq Term := decEq

/-- A predicate symbol applied to arguments. -/
@[match_pattern] abbrev pred (symbol : String) (args : List Term) : Term :=
  .app .predicate symbol args

/-- A function symbol applied to arguments. -/
@[match_pattern] abbrev fn (symbol : String) (args : List Term) : Term :=
  .app .function symbol args

/-- The immediate subterms, from left to right. -/
def children : Term → List Term
  | .app _ _ args => args
  | .var _ => []
  | .not t => [t]
  | .binary _ l r => [l, r]
  | .quantified _ _ body => [body]

/-- The symbol or variable name at the head, if it has one. -/
def name? : Term → Option String
  | .app _ f _ => some f
  | .var x => some x
  | _ => none

/-- The name that a quantifier at the head binds. -/
def bound? : Term → Option String
  | .quantified _ x _ => some x
  | _ => none

/-- Whether the term stands for a truth value. -/
def isFormula : Term → Bool
  | .app .function _ _ | .var _ => false
  | _ => true

/-- Whether the term is a predicate applied to arguments. -/
def isAtomic : Term → Bool
  | .app .predicate _ _ => true
  | _ => false

mutual

/-- The number of nodes. -/
def size : Term → Nat
  | .app _ _ args => sizeList args + 1
  | .var _ => 1
  | .not t => t.size + 1
  | .binary _ l r => l.size + r.size + 1
  | .quantified _ _ body => body.size + 1

/-- The number of nodes of all terms of a list. -/
def sizeList : List Term → Nat
  | [] => 0
  | t :: ts => t.size + sizeList ts

end

mutual

/-- The variables with an occurrence that no enclosing quantifier binds. -/
def freeVars : Term → NameSet
  | .app _ _ args => freeVarsList args
  | .var x => .single x
  | .not t => t.freeVars
  | .binary _ l r => l.freeVars ∪ r.freeVars
  | .quantified _ x body => body.freeVars.erase x

/-- The variables free in some term of a list. -/
def freeVarsList : List Term → NameSet
  | [] => ∅
  | t :: ts => t.freeVars ∪ freeVarsList ts

end

mutual

/-- Every name that occurs: symbols, variables and bound names. -/
def symbols : Term → NameSet
  | .app _ f args => (symbolsList args).insert f
  | .var x => .single x
  | .not t => t.symbols
  | .binary _ l r => l.symbols ∪ r.symbols
  | .quantified _ x body => body.symbols.insert x

/-- Every name that occurs in some term of a list. -/
def symbolsList : List Term → NameSet
  | [] => ∅
  | t :: ts => t.symbols ∪ symbolsList ts

end

mutual

/-- Whether some quantifier of the term binds the empty name. -/
def hasUnnamedBinder : Term → Bool
  | .app _ _ args => hasUnnamedBinderList args
  | .var _ => false
  | .not t => t.hasUnnamedBinder
  | .binary _ l r => l.hasUnnamedBinder || r.hasUnnamedBinder
  | .quantified _ x body => x == "" || body.hasUnnamedBinder

/-- Whether some quantifier of a term of the list binds the empty name. -/
def hasUnnamedBinderList : List Term → Bool
  | [] => false
  | t :: ts => t.hasUnnamedBinder || hasUnnamedBinderList ts

end

/-- Why a term is refused. -/
inductive Defect where
  /-- A quantifier binds the empty name. -/
  | unnamedBinder
deriving DecidableEq

/-- The wording of a defect. -/
def Defect.message : Defect → String
  | .unnamedBinder => "quantifier without a bound name"

/-- A term all of whose quantifiers bind a name that is not empty. -/
def validate (t : Term) : Except Defect Term :=
  if t.hasUnnamedBinder then .error .unnamedBinder else .ok t

end Term

end SignedTableaux
