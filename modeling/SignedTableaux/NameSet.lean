/-!
# Finite sets of names

A set of names is kept as the strictly ascending list of its members, so two sets with the same
members are equal and listing a set is already sorted. Names are compared by code point.

## Main definitions

* `NameSet` — the type, with `∅`, `∈`, `insert`, `erase`, `∪`
* `NameSet.ofList`, `NameSet.toList` — from any list, and back in ascending order
-/

namespace SignedTableaux

/-- Puts a name at its place in an ascending list, unless it is there already. -/
def insertAscending (x : String) : List String → List String
  | [] => [x]
  | y :: ys => if x < y then x :: y :: ys else if x = y then y :: ys else y :: insertAscending x ys

theorem mem_insertAscending {x y : String} {xs : List String} :
    y ∈ insertAscending x xs ↔ y = x ∨ y ∈ xs := by
  induction xs with
  | nil => simp [insertAscending]
  | cons z zs ih =>
    rw [insertAscending]
    split
    · simp
    · split
      · next h => simp [h]
      · simp only [List.mem_cons, ih]
        exact or_left_comm

theorem pairwise_insertAscending {x : String} {xs : List String} (h : xs.Pairwise (· < ·)) :
    (insertAscending x xs).Pairwise (· < ·) := by
  induction xs with
  | nil => simp [insertAscending]
  | cons z zs ih =>
    have hz := List.pairwise_cons.1 h
    rw [insertAscending]
    split
    · next hxz =>
      refine List.pairwise_cons.2 ⟨fun y hy => ?_, h⟩
      rcases List.mem_cons.1 hy with rfl | hy
      · exact hxz
      · exact String.lt_trans hxz (hz.1 y hy)
    · split
      · exact h
      · next hxz hne =>
        refine List.pairwise_cons.2 ⟨fun y hy => ?_, ih hz.2⟩
        rcases mem_insertAscending.1 hy with rfl | hy
        · exact String.not_le.1 fun hle => hne (String.le_antisymm hle (String.not_lt.1 hxz))
        · exact hz.1 y hy

/-- A finite set of names, as the strictly ascending list of its members. -/
structure NameSet where
  /-- The members in ascending order. -/
  toList : List String
  ascending : toList.Pairwise (· < ·)
deriving DecidableEq

namespace NameSet

instance : EmptyCollection NameSet := ⟨⟨[], .nil⟩⟩

instance : Inhabited NameSet := ⟨∅⟩

instance : Membership String NameSet := ⟨fun s x => x ∈ s.toList⟩

instance (x : String) (s : NameSet) : Decidable (x ∈ s) :=
  inferInstanceAs (Decidable (x ∈ s.toList))

/-- Adds one name. -/
def insert (s : NameSet) (x : String) : NameSet :=
  ⟨insertAscending x s.toList, pairwise_insertAscending s.ascending⟩

/-- The set of the names in a list. -/
def ofList (xs : List String) : NameSet :=
  xs.foldr (fun x s => s.insert x) ∅

/-- The set holding one name. -/
def single (x : String) : NameSet :=
  ⟨[x], List.pairwise_singleton _ _⟩

/-- Removes one name. -/
def erase (s : NameSet) (x : String) : NameSet :=
  ⟨s.toList.filter (· ≠ x), s.ascending.filter _⟩

/-- All names of either set. -/
def union (s t : NameSet) : NameSet :=
  s.toList.foldr (fun x u => u.insert x) t

instance : Union NameSet := ⟨union⟩

/-- The number of names. -/
def size (s : NameSet) : Nat :=
  s.toList.length

theorem mem_def {x : String} {s : NameSet} : x ∈ s ↔ x ∈ s.toList := Iff.rfl

@[simp] theorem not_mem_empty (x : String) : x ∉ (∅ : NameSet) := List.not_mem_nil

@[simp] theorem mem_single {x y : String} : y ∈ single x ↔ y = x := List.mem_singleton

@[simp] theorem mem_insert {x y : String} {s : NameSet} : y ∈ s.insert x ↔ y = x ∨ y ∈ s :=
  mem_insertAscending

@[simp] theorem mem_erase {x y : String} {s : NameSet} : y ∈ s.erase x ↔ y ∈ s ∧ y ≠ x := by
  simp [mem_def, erase]

@[simp] theorem mem_union {y : String} {s t : NameSet} : y ∈ s ∪ t ↔ y ∈ s ∨ y ∈ t := by
  change y ∈ s.toList.foldr (fun x u => u.insert x) t ↔ y ∈ s.toList ∨ y ∈ t
  induction s.toList with
  | nil => simp
  | cons x xs ih => simp [ih, or_assoc]

@[simp] theorem mem_ofList {y : String} {xs : List String} : y ∈ ofList xs ↔ y ∈ xs := by
  induction xs with
  | nil => simp [ofList]
  | cons x xs ih =>
    change y ∈ (ofList xs).insert x ↔ _
    simp [ih]

end NameSet

end SignedTableaux
