import SignedTableaux.Term.Basic

/-!
# Binding names

In a formula as written, a name without arguments among arguments may be a constant or a
variable. It is a variable when an enclosing quantifier, or the scope the formula is read in,
binds it.

## Main definitions

* `Term.bindNames` — turns constants with a name in scope into variables
* `Term.bindOnStack` — the same by one walk through the term, with the scope on a stack
-/

namespace SignedTableaux.Term

mutual

/-- Turns every constant whose name is in `scope`, or bound by a quantifier around it, into the
variable of that name. -/
def bindNames (scope : List String) : Term → Term
  | .fn f [] => if f ∈ scope then .var f else .fn f []
  | .app k f args => .app k f (bindNamesList scope args)
  | .var x => .var x
  | .not t => .not (t.bindNames scope)
  | .binary c l r => .binary c (l.bindNames scope) (r.bindNames scope)
  | .quantified q x body => .quantified q x (body.bindNames (x :: scope))

/-- Binds the names of every term of a list. -/
def bindNamesList (scope : List String) : List Term → List Term
  | [] => []
  | t :: ts => t.bindNames scope :: bindNamesList scope ts

end

mutual

/-- Turns constants into variables as `bindNames` does. The scope is a stack, where a quantifier
puts the name that it binds and takes it off again after its body. -/
def bindOnStack : Term → StateM (List String) Term
  | .fn f [] => do
    let scope ← get
    return if f ∈ scope then .var f else .fn f []
  | .app k f args => return .app k f (← bindListOnStack args)
  | .var x => return .var x
  | .not t => return .not (← t.bindOnStack)
  | .binary c l r => return .binary c (← l.bindOnStack) (← r.bindOnStack)
  | .quantified q x body => do
    modify (· ++ [x])
    let body ← body.bindOnStack
    modify List.dropLast
    return .quantified q x body

/-- Turns constants into variables in every term of a list, one after the other. -/
def bindListOnStack : List Term → StateM (List String) (List Term)
  | [] => return []
  | t :: ts => return (← t.bindOnStack) :: (← bindListOnStack ts)

end

end SignedTableaux.Term
