import SignedTableaux.NameSet

/-!
# Numbered names

New names are made from a stem and a number, as in `X_1`, and the number is the least one that
gives a name not in use.

## Main definitions

* `numbered` — a stem, an underscore and a number
* `NameSet.leastUnused` — the least number, from a given one on, whose name is not in a set
-/

namespace SignedTableaux

/-- The name `stem_n`. -/
def numbered (stem : String) (n : Nat) : String :=
  stem ++ "_" ++ n.repr

/-- The least `n ≥ start` for which `numbered stem n` is not in `s`. Different numbers give
different names, so one of the first `s.size + 1` candidates is not in `s`. -/
def NameSet.leastUnused (s : NameSet) (stem : String) (start : Nat) : Nat :=
  ((List.range' start (s.size + 1)).find? fun n => numbered stem n ∉ s).getD (start + s.size)

end SignedTableaux
