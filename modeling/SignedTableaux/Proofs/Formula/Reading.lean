import Mathlib.Data.List.Basic
import SignedTableaux.Formula.Grammar

/-!
# Parsers as relations

What a parser returns, apart from its misses, as a relation between the tokens before, the value
and the tokens after. A sequence of parsers is then a composition of relations, and a repetition
ends where no separator follows.

## Main definitions

* `Parser.Reads` — a parser returns a value and leaves some tokens
* `Parser.Repeats` — a repetition with a separator, without a bound on the rounds

## Main results

* `Parser.reads_bind` — sequences of parsers
* `Parser.reads_many_iff` — `Parser.many` is repetition without a bound
* `Grammar.reads_arguments_iff` — the three forms of arguments
-/

namespace SignedTableaux

namespace Parser

variable {α β : Type} {ts rest : List Token}

/-- Whether a parser returns `a` and leaves `rest`. -/
def Reads (p : Parser α) (ts : List Token) (a : α) (rest : List Token) : Prop :=
  (p ts).result = some (a, rest)

theorem reads_congr {p q : Parser α} {us : List Token} {a : α} (h : p ts = q us) :
    p.Reads ts a rest ↔ q.Reads us a rest := by
  rw [Reads, Reads, h]

@[simp] theorem reads_bind {p : Parser α} {f : α → Parser β} {b : β} :
    Reads (p >>= f) ts b rest ↔ ∃ a mid, p.Reads ts a mid ∧ (f a).Reads mid b rest := by
  change (p.andThen f ts).result = some (b, rest) ↔ _
  rcases hresult : p ts with ⟨_ | ⟨a, mid⟩, misses⟩
  · simp [andThen, Reads, hresult]
  · simp only [andThen, Reads, hresult, Option.some.injEq, Prod.mk.injEq]
    constructor
    · exact fun h => ⟨a, mid, ⟨rfl, rfl⟩, h⟩
    · rintro ⟨_, _, ⟨rfl, rfl⟩, h⟩
      exact h

@[simp] theorem reads_pure {a b : α} : Reads (pure a) ts b rest ↔ a = b ∧ ts = rest := by
  simp [Reads, pure, succeed]

@[simp] theorem not_reads_fail {a : α} : ¬ Reads fail ts a rest := by
  simp [Reads, fail]

@[simp] theorem reads_note {wanted : List Construct} {u : Unit} :
    (note wanted).Reads ts u rest ↔ ts = rest := by
  simp [Reads, note]

@[simp] theorem not_reads_want {wanted : List Construct} {a : α} :
    ¬ (want wanted).Reads ts a rest := by
  simp [want]

@[simp] theorem reads_token {t : Token} {u : Unit} :
    (token t).Reads ts u rest ↔ ts = t :: rest := by
  cases ts with
  | nil => simp [Reads, token]
  | cons t' ts => by_cases h : t' = t <;> simp [Reads, token, h]

@[simp] theorem reads_name {x : String} : name.Reads ts x rest ↔ ts = .name x :: rest := by
  unfold Reads name
  split
  · simp
  · next hname =>
    constructor
    · exact fun h => absurd h not_reads_want
    · rintro rfl
      exact absurd rfl (hname x rest)

@[simp] theorem reads_finish {u : Unit} : finish.Reads ts u rest ↔ ts = [] ∧ rest = [] := by
  cases ts with
  | nil => simp [Reads, finish, eq_comm]
  | cons t ts =>
    simp only [reduceCtorEq, false_and, iff_false]
    exact fun h => not_reads_want h

/-! ### Repetition -/

/-- A repetition: values in a row, each with a separator before it, until no separator follows. -/
inductive Repeats (separator : Token) (R : List Token → α → List Token → Prop) :
    List Token → List α → List Token → Prop
  | stop {ts : List Token} (h : ts.head? ≠ some separator) : Repeats separator R ts [] ts
  | more {ts mid rest : List Token} {a : α} {as : List α} (h : R ts a mid)
      (hrest : Repeats separator R mid as rest) :
      Repeats separator R (separator :: ts) (a :: as) rest

/-- Whether a parser leaves no more tokens than there were. -/
def Shrinks (p : Parser α) : Prop :=
  ∀ ts a rest, p.Reads ts a rest → rest.length ≤ ts.length

variable {separator : Token} {item : Parser α}

theorem reads_manyUpTo_separator {n : Nat} {as : List α} :
    (manyUpTo separator item (n + 1)).Reads (separator :: ts) as rest ↔
      ∃ a mid as', item.Reads ts a mid ∧ (manyUpTo separator item n).Reads mid as' rest ∧
        a :: as' = as := by
  have hround : (manyUpTo separator item (n + 1)).Reads (separator :: ts) as rest ↔
      Reads (do
        let a ← item
        let as' ← manyUpTo separator item n
        return a :: as') ts as rest := by
    simp [Reads, manyUpTo]
  simp [hround]

theorem reads_manyUpTo_of_head?_ne {n : Nat} {as : List α} (h : ts.head? ≠ some separator) :
    (manyUpTo separator item n).Reads ts as rest ↔ [] = as ∧ ts = rest := by
  cases n with
  | zero => simp [Reads, manyUpTo, succeed]
  | succ n =>
    cases ts with
    | nil => simp [Reads, manyUpTo]
    | cons t ts =>
      have ht : t ≠ separator := by simpa using h
      simp [Reads, manyUpTo, ht]

/-- Rounds enough for all tokens are as good as any number of rounds. -/
theorem reads_manyUpTo_iff (h : item.Shrinks) {n : Nat} (hn : ts.length ≤ n) {as : List α} :
    (manyUpTo separator item n).Reads ts as rest ↔ Repeats separator item.Reads ts as rest := by
  induction n generalizing ts as with
  | zero =>
    obtain rfl := List.length_eq_zero_iff.mp (Nat.le_zero.mp hn)
    rw [reads_manyUpTo_of_head?_ne (by simp)]
    constructor
    · rintro ⟨rfl, rfl⟩
      exact .stop (by simp)
    · rintro ⟨⟩
      exact ⟨rfl, rfl⟩
  | succ n ih =>
    by_cases hhead : ts.head? = some separator
    · obtain ⟨ts, rfl⟩ := List.head?_eq_some_iff.mp hhead
      have hmid {a : α} {mid : List Token} (hitem : item.Reads ts a mid) : mid.length ≤ n :=
        Nat.le_trans (h ts a mid hitem) (Nat.le_of_succ_le_succ hn)
      rw [reads_manyUpTo_separator]
      constructor
      · rintro ⟨a, mid, as', hitem, hmany, rfl⟩
        exact .more hitem ((ih (hmid hitem)).mp hmany)
      · intro hrepeats
        cases hrepeats with
        | stop hne => exact absurd rfl hne
        | more hitem hrest => exact ⟨_, _, _, hitem, (ih (hmid hitem)).mpr hrest, rfl⟩
    · rw [reads_manyUpTo_of_head?_ne hhead]
      constructor
      · rintro ⟨rfl, rfl⟩
        exact .stop hhead
      · intro hrepeats
        cases hrepeats with
        | stop _ => exact ⟨rfl, rfl⟩
        | more _ _ => exact absurd rfl hhead

theorem reads_many_iff (h : item.Shrinks) {as : List α} :
    (many separator item).Reads ts as rest ↔ Repeats separator item.Reads ts as rest :=
  reads_manyUpTo_iff h (Nat.le_refl _)

theorem reads_chain_iff {first : Parser α} (h : item.Shrinks) {a : α} {as : List α} :
    (chain separator first item).Reads ts (a, as) rest ↔
      ∃ mid, first.Reads ts a mid ∧ Repeats separator item.Reads mid as rest := by
  simp [chain, reads_many_iff h]

/-- A chain whose values are put together. -/
theorem reads_combine_iff {first : Parser α} (h : item.Shrinks) {combine : α → List α → β} {b : β} :
    Reads (do
      let (a, as) ← chain separator first item
      return combine a as) ts b rest ↔
      ∃ a as mid, first.Reads ts a mid ∧ Repeats separator item.Reads mid as rest ∧
        combine a as = b := by
  simp only [reads_bind, Prod.exists, reads_chain_iff h, reads_pure]
  constructor
  · rintro ⟨a, as, _, ⟨mid, hfirst, hothers⟩, hb, rfl⟩
    exact ⟨a, as, mid, hfirst, hothers, hb⟩
  · rintro ⟨a, as, mid, hfirst, hothers, hb⟩
    exact ⟨a, as, rest, ⟨mid, hfirst, hothers⟩, hb, rfl⟩

end Parser

namespace Grammar

open SignedTableaux.Parser

variable {ts rest : List Token}

theorem reads_optionalDot_iff {u : Unit} :
    optionalDot.Reads ts u rest ↔
      ts = .dot :: rest ∨ ts = rest ∧ ts.head? ≠ some .dot := by
  unfold Reads optionalDot
  split
  · simp
  · next hdot =>
    simp only [Option.some.injEq, Prod.mk.injEq, true_and]
    have hne : ts.head? ≠ some .dot := fun h =>
      let ⟨ts', hts⟩ := List.head?_eq_some_iff.mp h
      hdot ts' hts
    constructor
    · exact fun h => .inr ⟨h, hne⟩
    · rintro (rfl | ⟨h, -⟩)
      · exact absurd rfl hne
      · exact h

/-- Empty parentheses, arguments in parentheses, or no parentheses. -/
theorem reads_arguments_iff {argument : Parser Term} (h : argument.Shrinks) {args : List Term} :
    (arguments argument).Reads ts args rest ↔
      ts = .leftParen :: .rightParen :: rest ∧ args = [] ∨
        (∃ body a mid as, ts = .leftParen :: body ∧ body.head? ≠ some .rightParen ∧
          argument.Reads body a mid ∧ Repeats .comma argument.Reads mid as (.rightParen :: rest) ∧
            args = a :: as) ∨
          ts = rest ∧ ts.head? ≠ some .leftParen ∧ args = [] := by
  unfold Reads arguments
  split
  · next ts =>
    change noArguments.Reads _ _ _ ↔ _
    simp [noArguments, and_comm, eq_comm]
  · next ts hne =>
    have hhead : ts.head? ≠ some .rightParen := fun h =>
      let ⟨ts', hts⟩ := List.head?_eq_some_iff.mp h
      hne ts' (by rw [hts])
    change (someArguments argument).Reads _ _ _ ↔ _
    simp only [someArguments, reads_bind, Prod.exists, reads_chain_iff h, reads_token, reads_pure]
    constructor
    · rintro ⟨a, as, mid, ⟨mid', hfirst, hothers⟩, -, _, rfl, rfl, rfl⟩
      exact .inr (.inl ⟨ts, a, mid', as, rfl, hhead, hfirst, hothers, rfl⟩)
    · rintro (⟨hts, -⟩ | ⟨body, a, mid, as, hts, -, hfirst, hothers, rfl⟩ | ⟨-, hts, -⟩)
      · exact absurd (List.cons.inj hts).2 (by rintro rfl; exact hhead rfl)
      · obtain rfl := (List.cons.inj hts).2
        exact ⟨a, as, _, ⟨mid, hfirst, hothers⟩, (), rest, rfl, rfl, rfl⟩
      · exact absurd rfl hts
  · next hempty hsome =>
    have hhead : ts.head? ≠ some .leftParen := fun h =>
      let ⟨ts', hts⟩ := List.head?_eq_some_iff.mp h
      hsome ts' hts
    change Reads (do note [.argumentList]; return []) ts args rest ↔ _
    simp only [reads_bind, reads_note, reads_pure]
    constructor
    · rintro ⟨-, mid, rfl, rfl, rfl⟩
      exact .inr (.inr ⟨rfl, hhead, rfl⟩)
    · rintro (⟨rfl, -⟩ | ⟨body, _, _, _, rfl, -⟩ | ⟨rfl, -, rfl⟩)
      · exact absurd rfl hhead
      · exact absurd rfl hhead
      · exact ⟨(), ts, rfl, rfl, rfl⟩

end Grammar

end SignedTableaux
