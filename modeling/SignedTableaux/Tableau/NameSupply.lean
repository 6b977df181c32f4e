import SignedTableaux.NumberedName
import SignedTableaux.Term.Basic
import SignedTableaux.Text.Uppercase

/-!
# Supply of fresh names

Rules for quantifiers need names that occur nowhere yet. One counter numbers all names; it only
grows, and a number whose name is taken is passed over.

## Main definitions

* `NameSupply` — the counter and the names in use
* `NameSupply.freshVariable` — a fresh variable for a bound name
* `NameSupply.freshSkolem` — a fresh function symbol applied to arguments
-/

namespace SignedTableaux

/-- A supply of fresh names. -/
structure NameSupply where
  /-- The number of the last name issued. -/
  counter : Nat
  /-- How many names were issued. -/
  issued : Nat
  /-- The names in use. -/
  taken : NameSet
deriving DecidableEq

namespace NameSupply

/-- A supply that issues none of the given names. -/
def avoiding (names : NameSet) : NameSupply :=
  ⟨0, 0, names⟩

/-- Puts names out of use. -/
def reserve (supply : NameSupply) (names : NameSet) : NameSupply :=
  { supply with taken := names ∪ supply.taken }

/-- Issues the name with the given stem and the least number above the counter that is not taken. -/
def issue (supply : NameSupply) (stem : String) : String × NameSupply :=
  let n := supply.taken.leastUnused stem (supply.counter + 1)
  let name := numbered stem n
  (name, ⟨n, supply.issued + 1, supply.taken.insert name⟩)

/-- Issues a variable, named after a bound name in upper case. -/
def freshVariable (supply : NameSupply) (bound : String) : String × NameSupply :=
  supply.issue (Text.uppercase bound)

/-- Issues a function symbol and applies it to arguments. -/
def freshSkolem (supply : NameSupply) (args : List Term) : Term × NameSupply :=
  let (f, supply) := supply.issue "f"
  (.fn f args, supply)

end NameSupply

end SignedTableaux
