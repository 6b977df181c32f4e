import Mathlib.Logic.Equiv.Basic
import SignedTableaux.Proofs.FreshNames

/-!
# Names drawn in either order

Which name a supply issues depends on what it issued before. If two names are drawn in one order and
in the other, the names differ, but a permutation of names that moves nothing in use carries the
first pair to the second.

## Main definitions

* `NameSupply.draw` — issues a name for a stem, if there is one
* `carry` — a permutation that takes two names to two others
* `NameSupply.exchange` — the permutation for two draws

## Main results

* `NameSupply.exchange_first`, `NameSupply.exchange_second` — what becomes of the two names
* `NameSupply.exchange_of_mem` — names in use are not moved
* `NameSupply.mem_taken_exchange` — the names in use after either order
-/

namespace SignedTableaux

/-! ### Carrying two names to two others -/

/-- A permutation that takes `a` to `a'` and `b` to `b'`, if these are two different names each. -/
def carry (a a' b b' : String) : Equiv.Perm String :=
  (Equiv.swap a a').trans (Equiv.swap (Equiv.swap a a' b) b')

section Carry

variable {a a' b b' x : String}

theorem carry_left (h : a ≠ b) (h' : a' ≠ b') : carry a a' b b' a = a' := by
  have hne : Equiv.swap a a' a ≠ Equiv.swap a a' b := (Equiv.swap a a').injective.ne h
  rw [Equiv.swap_apply_left] at hne
  rw [carry, Equiv.trans_apply, Equiv.swap_apply_left, Equiv.swap_apply_of_ne_of_ne hne h']

theorem carry_right : carry a a' b b' b = b' := by
  rw [carry, Equiv.trans_apply, Equiv.swap_apply_left]

theorem carry_of_ne (ha : x ≠ a) (ha' : x ≠ a') (hb : x ≠ b) (hb' : x ≠ b') :
    carry a a' b b' x = x := by
  have hx : Equiv.swap a a' x = x := Equiv.swap_apply_of_ne_of_ne ha ha'
  have hne : Equiv.swap a a' x ≠ Equiv.swap a a' b := (Equiv.swap a a').injective.ne hb
  rw [hx] at hne
  rw [carry, Equiv.trans_apply, hx, Equiv.swap_apply_of_ne_of_ne hne hb']

end Carry

namespace NameSupply

/-- Issues a name for a stem, if there is one. -/
def draw (names : NameSupply) : Option String → String × NameSupply
  | none => ("", names)
  | some stem => names.issue stem

theorem draw_not_mem (names : NameSupply) {a : Option String} (h : a.isSome) :
    (names.draw a).1 ∉ names.taken := by
  cases a with
  | none => cases h
  | some stem => exact names.issue_not_mem stem

/-- The permutation that turns the names drawn for `a` and then for `b` into those drawn for `b` and
then for `a`. -/
def exchange (names : NameSupply) : Option String → Option String → Equiv.Perm String
  | some a, some b =>
    carry (names.issue a).1 ((names.issue b).2.issue a).1 ((names.issue a).2.issue b).1
      (names.issue b).1
  | _, _ => Equiv.refl String

variable (names : NameSupply) (a b : Option String)

theorem exchange_eq_refl {a b : Option String} (h : a = none ∨ b = none) :
    names.exchange a b = Equiv.refl String := by
  cases a <;> cases b <;> simp_all [exchange]

/-- A name that is issued later is another one. -/
theorem issue_ne_issue (a b : String) : (names.issue a).1 ≠ ((names.issue a).2.issue b).1 := by
  intro h
  have hnot := (names.issue a).2.issue_not_mem b
  rw [← h] at hnot
  exact hnot ((mem_taken_issue names a).mpr (.inl rfl))

theorem issue_issue_not_mem (a b : String) : ((names.issue a).2.issue b).1 ∉ names.taken :=
  fun h => (names.issue a).2.issue_not_mem b ((mem_taken_issue names a).mpr (.inr h))

theorem exchange_first :
    names.exchange a b (names.draw a).1 = ((names.draw b).2.draw a).1 := by
  cases a with
  | none => cases b <;> rfl
  | some a =>
    cases b with
    | none => rfl
    | some b => exact carry_left (names.issue_ne_issue a b) (names.issue_ne_issue b a).symm

theorem exchange_second :
    names.exchange a b ((names.draw a).2.draw b).1 = (names.draw b).1 := by
  cases a with
  | none => cases b <;> rfl
  | some a =>
    cases b with
    | none => rfl
    | some b => exact carry_right

/-- Names in use are not moved. -/
theorem exchange_of_mem {x : String} (hx : x ∈ names.taken) : names.exchange a b x = x := by
  have hne {y : String} (hy : y ∉ names.taken) : x ≠ y := fun h => hy (h ▸ hx)
  cases a with
  | none => cases b <;> rfl
  | some a =>
    cases b with
    | none => rfl
    | some b =>
      exact carry_of_ne (hne (names.issue_not_mem a)) (hne (names.issue_issue_not_mem b a))
        (hne (names.issue_issue_not_mem a b)) (hne (names.issue_not_mem b))

theorem exchange_mem_iff {x : String} : names.exchange a b x ∈ names.taken ↔ x ∈ names.taken := by
  constructor
  · intro h
    have hfixed := names.exchange_of_mem a b h
    rwa [(names.exchange a b).injective hfixed] at h
  · intro h
    rwa [names.exchange_of_mem a b h]

/-- The names in use after either order. -/
theorem mem_taken_exchange {x : String} :
    names.exchange a b x ∈ ((names.draw b).2.draw a).2.taken ↔
      x ∈ ((names.draw a).2.draw b).2.taken := by
  cases a with
  | none => cases b <;> rfl
  | some a =>
    cases b with
    | none => rfl
    | some b =>
      have hfirst := names.exchange_first (some a) (some b)
      have hsecond := names.exchange_second (some a) (some b)
      simp only [draw] at hfirst hsecond ⊢
      rw [mem_taken_issue, mem_taken_issue, mem_taken_issue, mem_taken_issue, exchange_mem_iff,
        ← hfirst, ← hsecond, (names.exchange _ _).injective.eq_iff,
        (names.exchange _ _).injective.eq_iff]
      exact or_left_comm

theorem issued_exchange :
    ((names.draw b).2.draw a).2.issued = ((names.draw a).2.draw b).2.issued := by
  cases a <;> cases b <;> rfl

end NameSupply

end SignedTableaux
