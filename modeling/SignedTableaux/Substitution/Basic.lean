import SignedTableaux.NumberedName
import SignedTableaux.Term.Basic

/-!
# Substitutions

A substitution maps finitely many names to terms. It is applied to all free variables at once,
and a quantifier whose bound name would capture a variable of an image is renamed first.

## Main definitions

* `Substitution` — bindings in ascending order of names, with `get?`, `insert`, `ofList`
* `Substitution.apply` — simultaneous capture-avoiding substitution
* `Term.substitute`, `Term.rename` — one variable replaced by a term, or by another variable
-/

namespace SignedTableaux

/-- Binds a name in an ascending list of bindings, in place of the binding it has. -/
def bindAscending (x : String) (t : Term) : List (String × Term) → List (String × Term)
  | [] => [(x, t)]
  | (y, u) :: rest =>
    if x < y then (x, t) :: (y, u) :: rest
    else if x = y then (x, t) :: rest
    else (y, u) :: bindAscending x t rest

theorem map_fst_bindAscending (x : String) (t : Term) (bs : List (String × Term)) :
    (bindAscending x t bs).map Prod.fst = insertAscending x (bs.map Prod.fst) := by
  induction bs with
  | nil => rfl
  | cons b bs ih =>
    simp only [bindAscending, List.map_cons, insertAscending]
    split
    · rfl
    · split
      · next h => simp [h]
      · simp [ih]

/-- A finite map from names to terms, as the list of its bindings in ascending order of names. -/
structure Substitution where
  /-- The bindings in ascending order of names. -/
  bindings : List (String × Term)
  ascending : (bindings.map Prod.fst).Pairwise (· < ·)
deriving DecidableEq

namespace Substitution

theorem ascending_nil : (([] : List (String × Term)).map Prod.fst).Pairwise (· < ·) := .nil

instance : EmptyCollection Substitution := ⟨⟨[], ascending_nil⟩⟩

instance : Inhabited Substitution := ⟨∅⟩

/-- The names it maps. -/
def domain (σ : Substitution) : NameSet :=
  ⟨σ.bindings.map Prod.fst, σ.ascending⟩

/-- The term that a name is mapped to. -/
def get? (σ : Substitution) (x : String) : Option Term :=
  σ.bindings.lookup x

/-- The number of bindings. -/
def size (σ : Substitution) : Nat :=
  σ.bindings.length

/-- Maps `x` to `t`, whatever it was mapped to before. -/
def insert (σ : Substitution) (x : String) (t : Term) : Substitution :=
  ⟨bindAscending x t σ.bindings, by
    rw [map_fst_bindAscending]
    exact pairwise_insertAscending σ.ascending⟩

/-- The substitution that maps one name. -/
def single (x : String) (t : Term) : Substitution :=
  (∅ : Substitution).insert x t

/-- The substitution with the bindings of a list, of which a later one wins. -/
def ofList (bs : List (String × Term)) : Substitution :=
  bs.foldl (fun σ b => σ.insert b.1 b.2) ∅

/-- Every name that occurs in an image. -/
def imageSymbols (σ : Substitution) : NameSet :=
  Term.symbolsList (σ.bindings.map Prod.snd)

/-- Whether putting `σ` under a quantifier that binds `x` in `body` would capture: an image that
replaces a free variable of `body` has `x` free. -/
def captures (σ : Substitution) (x : String) (body : Term) : Bool :=
  σ.bindings.any fun (y, image) => y ∈ body.freeVars ∧ x ∈ image.freeVars

/-- The names that a renamed binder over `body` must avoid. -/
def avoided (σ : Substitution) (body : Term) : NameSet :=
  body.symbols ∪ (σ.domain ∪ σ.imageSymbols)

/-- The name that replaces the bound name `x` over `body` where `σ` would capture. -/
def freshBinder (σ : Substitution) (x : String) (body : Term) : String :=
  numbered x ((σ.avoided body).leastUnused x 1)

mutual

/-- Replaces every free variable in the domain by its image, all at once. A quantifier that binds a
name of the domain is left as it is; one that would capture gets the name `freshBinder`. -/
def apply (σ : Substitution) : Term → Term
  | .app k f args => .app k f (σ.applyList args)
  | .var x => (σ.get? x).getD (.var x)
  | .not t => .not (σ.apply t)
  | .binary c l r => .binary c (σ.apply l) (σ.apply r)
  | .quantified q x body =>
    if x ∈ σ.domain then .quantified q x body
    else if σ.captures x body then
      let y := σ.freshBinder x body
      .quantified q y ((σ.insert x (.var y)).apply body)
    else .quantified q x (σ.apply body)

/-- Applies a substitution to every term of a list. -/
def applyList (σ : Substitution) : List Term → List Term
  | [] => []
  | t :: ts => σ.apply t :: σ.applyList ts

end

end Substitution

namespace Term

/-- Replaces the free occurrences of the variable `x` by `r`. -/
def substitute (t : Term) (x : String) (r : Term) : Term :=
  (Substitution.single x r).apply t

/-- Replaces the free occurrences of the variable `x` by the variable `y`. -/
def rename (t : Term) (x y : String) : Term :=
  t.substitute x (.var y)

end Term

end SignedTableaux
