import Mathlib.Data.List.Nodup
import Mathlib.Data.List.Perm.Subperm
import Mathlib.Order.Bounds.Defs
import SignedTableaux.Tableau.NameSupply

/-!
# Fresh names are fresh

Different numbers give different names of one stem, so among one more candidates than there are
names in use there is one that is not in use. Hence the search of `NameSet.leastUnused` always
succeeds, and a supply never issues a name that is taken. The search has a bound only to be a
function; tried without one, the numbers lead to the same end.

## Main definitions

* `NameSet.SearchFrom` — the search for an unused number, one after another

## Main results

* `numbered_injective` — the number can be read off a name
* `NameSet.find?_eq_leastUnused` — the search succeeds
* `NameSet.isLeast_leastUnused`, `NameSet.leastUnused_le` — it ends at the least number whose name
  is outside the set, after at most one more candidates than the set has names
* `NameSet.searchFrom_iff_isLeast`, `NameSet.searchFrom_leastUnused` — the search without a bound
  ends, and ends there too
* `NameSupply.issue_not_mem` — an issued name was not taken before
-/

namespace SignedTableaux

theorem numbered_injective (stem : String) : Function.Injective (numbered stem) := by
  intro m n h
  have hrepr : m.repr = n.repr := (String.append_right_inj _).mp h
  have hdigits : Nat.toDigits 10 m = Nat.toDigits 10 n := by
    rw [← Nat.toList_repr, ← Nat.toList_repr, hrepr]
  rw [← Nat.ofDigitChars_ten_toDigits (n := m), hdigits, Nat.ofDigitChars_ten_toDigits]

namespace NameSet

/-- Among one more candidates than there are names in the set, one is not in it. -/
theorem exists_numbered_not_mem (s : NameSet) (stem : String) (start : Nat) :
    ∃ n ∈ List.range' start (s.size + 1), numbered stem n ∉ s := by
  -- otherwise the set would have more names than it has
  by_contra hall
  push Not at hall
  have hnodup : ((List.range' start (s.size + 1)).map (numbered stem)).Nodup :=
    List.Nodup.map (numbered_injective stem) (List.nodup_range' 1)
  have hsub : (List.range' start (s.size + 1)).map (numbered stem) ⊆ s.toList := by
    intro name hname
    obtain ⟨n, hn, rfl⟩ := List.mem_map.mp hname
    exact hall n hn
  have hle := (List.subperm_of_subset hnodup hsub).length_le
  rw [List.length_map, List.length_range'] at hle
  exact absurd hle (by simp [size])

theorem find?_eq_leastUnused (s : NameSet) (stem : String) (start : Nat) :
    ((List.range' start (s.size + 1)).find? fun n => numbered stem n ∉ s) =
      some (s.leastUnused stem start) := by
  obtain ⟨n, hn, hfresh⟩ := s.exists_numbered_not_mem stem start
  have hsome : ((List.range' start (s.size + 1)).find? fun n => numbered stem n ∉ s).isSome :=
    List.find?_isSome.mpr ⟨n, hn, decide_eq_true hfresh⟩
  obtain ⟨m, hm⟩ := Option.isSome_iff_exists.mp hsome
  rw [leastUnused, hm, Option.getD_some]

/-- The search ends at the least number whose name is not in the set. -/
theorem isLeast_leastUnused (s : NameSet) (stem : String) (start : Nat) :
    IsLeast {n | start ≤ n ∧ numbered stem n ∉ s} (s.leastUnused stem start) := by
  obtain ⟨hfresh, hmem, hbefore⟩ := List.find?_range'_eq_some.mp (s.find?_eq_leastUnused stem start)
  refine ⟨⟨(List.mem_range'_1.mp hmem).1, of_decide_eq_true hfresh⟩, fun n ⟨hn, hfresh⟩ => ?_⟩
  refine Nat.not_lt.mp fun hlt => hfresh ?_
  simpa using hbefore n hn hlt

theorem leastUnused_le (s : NameSet) (stem : String) (start : Nat) :
    s.leastUnused stem start ≤ start + s.size := by
  have hmem := List.mem_of_find?_eq_some (s.find?_eq_leastUnused stem start)
  exact Nat.le_of_lt_succ (List.mem_range'_1.mp hmem).2

theorem numbered_leastUnused_not_mem (s : NameSet) (stem : String) (start : Nat) :
    numbered stem (s.leastUnused stem start) ∉ s :=
  (s.isLeast_leastUnused stem start).1.2

/-- Whether the search that tries the numbers from `start` on, one after another and without a
bound, ends at `n`. -/
inductive SearchFrom (s : NameSet) (stem : String) : (start n : Nat) → Prop
  | found {start : Nat} (h : numbered stem start ∉ s) : SearchFrom s stem start start
  | next {start n : Nat} (h : numbered stem start ∈ s) (hn : SearchFrom s stem (start + 1) n) :
      SearchFrom s stem start n

theorem SearchFrom.isLeast {s : NameSet} {stem : String} {start n : Nat}
    (h : s.SearchFrom stem start n) : IsLeast {n | start ≤ n ∧ numbered stem n ∉ s} n := by
  induction h with
  | @found start hstart => exact ⟨⟨Nat.le_refl start, hstart⟩, fun m hm => hm.1⟩
  | @next start n hstart _ ih =>
    obtain ⟨⟨hle, hn⟩, hleast⟩ := ih
    refine ⟨⟨Nat.le_of_succ_le hle, hn⟩, fun m ⟨hm, hfresh⟩ => hleast ⟨?_, hfresh⟩⟩
    exact Nat.lt_of_le_of_ne hm fun heq => hfresh (heq ▸ hstart)

/-- The search passes over used numbers. -/
theorem searchFrom_of_used {s : NameSet} {stem : String} {start : Nat} (k : Nat)
    (hused : ∀ m, start ≤ m → m < start + k → numbered stem m ∈ s)
    (hfresh : numbered stem (start + k) ∉ s) : s.SearchFrom stem start (start + k) := by
  induction k generalizing start with
  | zero => exact .found hfresh
  | succ k ih =>
    have hstart : numbered stem start ∈ s := hused start (Nat.le_refl start) (by omega)
    rw [← Nat.add_assoc, Nat.add_right_comm] at hused hfresh ⊢
    exact .next hstart (ih (fun m hm => hused m (Nat.le_of_succ_le hm)) hfresh)

/-- The search ends at a number just if it is the least unused one. -/
theorem searchFrom_iff_isLeast {s : NameSet} {stem : String} {start n : Nat} :
    s.SearchFrom stem start n ↔ IsLeast {n | start ≤ n ∧ numbered stem n ∉ s} n := by
  refine ⟨SearchFrom.isLeast, fun ⟨⟨hle, hfresh⟩, hleast⟩ => ?_⟩
  obtain ⟨k, rfl⟩ := Nat.exists_eq_add_of_le hle
  refine searchFrom_of_used k (fun m hm hlt => ?_) hfresh
  by_contra hunused
  exact Nat.not_le_of_lt hlt (hleast ⟨hm, hunused⟩)

theorem searchFrom_leastUnused (s : NameSet) (stem : String) (start : Nat) :
    s.SearchFrom stem start (s.leastUnused stem start) :=
  searchFrom_iff_isLeast.mpr (s.isLeast_leastUnused stem start)

end NameSet

namespace NameSupply

variable (supply : NameSupply) (stem : String)

theorem issue_not_mem : (supply.issue stem).1 ∉ supply.taken :=
  supply.taken.numbered_leastUnused_not_mem stem _

@[simp] theorem mem_taken_issue {name : String} :
    name ∈ (supply.issue stem).2.taken ↔ name = (supply.issue stem).1 ∨ name ∈ supply.taken :=
  NameSet.mem_insert

@[simp] theorem mem_taken_reserve {names : NameSet} {name : String} :
    name ∈ (supply.reserve names).taken ↔ name ∈ names ∨ name ∈ supply.taken :=
  NameSet.mem_union

end NameSupply

end SignedTableaux
