import Mathlib.Data.List.DropRight
import SignedTableaux.Proofs.FreshNames

/-!
# The names that a supply issues

A supply is asked for variables and Skolem terms, and between that it is told to put names out of
use. All names share one counter and one set of names in use, whatever their stems. The number of a
name can be read off the name, even where the stem ends in digits or underscores, and it is greater
than that of every name issued before. So no name is issued twice.

A name is looked for number by number, from the counter on. The search ends because only finitely
many names are in use, and different numbers give different names.

## Main definitions

* `numericSuffix` — the number at the end of a name
* `NameSupply.Call`, `NameSupply.answers` — what a supply is asked for, and what it issues in a run
* `NameSupply.Search` — the search for a name, number by number
* `NameSupply.Issues` — what a call that asks for a name does
* `NameSupply.Accounts` — what a supply keeps account of in the course of a run

## Main results

* `numericSuffix_numbered` — the number of a name
* `NameSupply.issues_of_stem` — every call that asks for a name ends, with the least number
* `NameSupply.Accounts.issue`, `NameSupply.Accounts.reserve` — what the two kinds of calls keep
* `NameSupply.issues_after` — the names issued in a run
-/

namespace SignedTableaux

/-- The number that the characters after the last underscore of a name stand for. -/
def numericSuffix (name : String) : Nat :=
  Nat.ofDigitChars 10 (name.toList.rtakeWhile (· ≠ '_')) 0

/-- The number of a name can be read off, whatever its stem. -/
theorem numericSuffix_numbered (stem : String) (n : Nat) : numericSuffix (numbered stem n) = n := by
  have htoList : (numbered stem n).toList = stem.toList ++ '_' :: Nat.toDigits 10 n := by
    simp [numbered]
  have hdigits : ∀ c ∈ (Nat.toDigits 10 n).reverse, decide (c ≠ '_') = true := by
    intro c hc
    have hdigit := Nat.isDigit_of_mem_toDigits (by decide) (by decide) (List.mem_reverse.mp hc)
    refine decide_eq_true ?_
    rintro rfl
    exact absurd hdigit (by decide)
  have hsuffix : (numbered stem n).toList.rtakeWhile (· ≠ '_') = Nat.toDigits 10 n := by
    rw [htoList, List.rtakeWhile, List.reverse_append, List.reverse_cons, List.append_assoc,
      List.takeWhile_append_of_pos hdigits, List.singleton_append,
      List.takeWhile_cons_of_neg (by decide), List.append_nil, List.reverse_reverse]
  rw [numericSuffix, hsuffix, Nat.ofDigitChars_ten_toDigits]

namespace NameSupply

/-! ### One call -/

/-- What a supply is asked to do. -/
inductive Call where
  | freshVariable (bound : String)
  | freshSkolem (args : List Term)
  | reserve (names : NameSet)

namespace Call

/-- The stem of the name that a call asks for, if it asks for one. -/
def stem? : Call → Option String
  | .freshVariable bound => some (Text.uppercase bound)
  | .freshSkolem _ => some "f"
  | .reserve _ => none

/-- The names that a call puts out of use. -/
def reserved : Call → NameSet
  | .reserve names => names
  | _ => ∅

end Call

/-- Answers a call: the name that is issued, if any, and the supply afterwards. -/
def answer (supply : NameSupply) : Call → Option String × NameSupply
  | .freshVariable bound =>
    let (name, supply) := supply.freshVariable bound
    (some name, supply)
  | .freshSkolem args =>
    let (term, supply) := supply.freshSkolem args
    (term.name?, supply)
  | .reserve names => (none, supply.reserve names)

/-- The search for a name, number by number from `c` on, ends at `n`: numbers of names in use are
passed over. -/
inductive Search (taken : NameSet) (stem : String) : (c n : Nat) → Prop
  | found {c : Nat} (h : numbered stem (c + 1) ∉ taken) : Search taken stem c (c + 1)
  | passed {c n : Nat} (h : numbered stem (c + 1) ∈ taken) (hrest : Search taken stem (c + 1) n) :
      Search taken stem c n

/-- What a call that asks for a name with some stem does: the search ends, after at most one more
rounds than there are names in use, and the least number above the counter whose name is not in use
is issued. -/
structure Issues (supply : NameSupply) (call : Call) (stem : String) (n : Nat) : Prop where
  answer_eq : supply.answer call =
    (some (numbered stem n), ⟨n, supply.issued + 1, supply.taken.insert (numbered stem n)⟩)
  ends : Search supply.taken stem supply.counter n
  le : n ≤ supply.counter + supply.taken.size + 1
  isLeast : IsLeast {m | supply.counter < m ∧ numbered stem m ∉ supply.taken} n

variable {supply : NameSupply} {taken : NameSet} {call : Call} {stem name : String} {c n : Nat}

/-- If there is a least number to end at, the search ends there. -/
theorem search_of_isLeast (h : IsLeast {m | c < m ∧ numbered stem m ∉ taken} n) :
    Search taken stem c n := by
  obtain ⟨k, rfl⟩ := Nat.exists_eq_add_of_lt h.1.1
  -- by induction on the number of names that are passed over
  induction k generalizing c with
  | zero => exact .found h.1.2
  | succ k ih =>
    have htaken : numbered stem (c + 1) ∈ taken := by
      by_contra hfresh
      have hle : c + (k + 1) + 1 ≤ c + 1 := h.2 ⟨Nat.lt_succ_self c, hfresh⟩
      omega
    refine .passed htaken ?_
    have hrest : IsLeast {m | c + 1 < m ∧ numbered stem m ∉ taken} (c + 1 + k + 1) := by
      rw [Nat.add_right_comm c 1 k]
      exact ⟨⟨by omega, h.1.2⟩, fun m hm => h.2 ⟨Nat.lt_of_succ_lt hm.1, hm.2⟩⟩
    have hsearch := ih hrest
    rwa [Nat.add_right_comm c 1 k] at hsearch

/-- Every call that asks for a name gets one. -/
theorem issues_of_stem (supply : NameSupply) (h : call.stem? = some stem) :
    supply.Issues call stem (supply.taken.leastUnused stem (supply.counter + 1)) := by
  have hleast := supply.taken.isLeast_leastUnused stem (supply.counter + 1)
  refine ⟨?_, search_of_isLeast hleast, ?_, hleast⟩
  · cases call with
    | freshVariable bound =>
      obtain rfl := Option.some.inj h
      rfl
    | freshSkolem args =>
      obtain rfl := Option.some.inj h
      rfl
    | reserve names => cases h
  · have hle := supply.taken.leastUnused_le stem (supply.counter + 1)
    omega

theorem answer_of_stem?_eq_none (h : call.stem? = none) :
    supply.answer call = (none, supply.reserve call.reserved) := by
  cases call with
  | reserve names => rfl
  | freshVariable | freshSkolem => cases h

theorem reserved_of_stem? (h : call.stem? = some stem) : name ∉ call.reserved := by
  cases call with
  | reserve names => cases h
  | freshVariable | freshSkolem => exact NameSet.not_mem_empty name

/-! ### Runs of calls -/

/-- Answers calls one after the other: the names that are issued, in order, and the supply
afterwards. -/
def answers (supply : NameSupply) (calls : List Call) : List String × NameSupply :=
  calls.foldl (fun (names, supply) call =>
    let (name, supply) := supply.answer call
    (names ++ name.toList, supply)) ([], supply)

theorem answers_concat (supply : NameSupply) (calls : List Call) (call : Call) :
    supply.answers (calls ++ [call]) =
      ((supply.answers calls).1 ++ ((supply.answers calls).2.answer call).1.toList,
        ((supply.answers calls).2.answer call).2) := by
  simp [answers]

/-- What a supply that was to avoid some names keeps account of, after it answered calls by issuing
`names`. -/
structure Accounts (avoided : NameSet) (calls : List Call) (names : List String)
    (supply : NameSupply) : Prop where
  /-- A name is in use just if it was to be avoided, has been reserved or has been issued. -/
  mem_taken_iff : ∀ name, name ∈ supply.taken ↔
    name ∈ avoided ∨ (∃ call ∈ calls, name ∈ call.reserved) ∨ name ∈ names
  issued_eq : supply.issued = calls.countP fun call => call.stem?.isSome
  length_eq : names.length = supply.issued
  /-- The counter is the number of the last name. -/
  counter_eq : supply.counter = (names.getLast?.map numericSuffix).getD 0
  le_counter : ∀ name ∈ names, numericSuffix name ≤ supply.counter
  increasing : (names.map numericSuffix).Pairwise (· < ·)

namespace Accounts

variable {avoided : NameSet} {calls : List Call} {names : List String}

theorem nodup (h : Accounts avoided calls names supply) : names.Nodup :=
  List.Nodup.of_map numericSuffix (h.increasing.imp Nat.ne_of_lt)

/-- A call that asks for a name adds one with a greater number. -/
theorem issue (h : Accounts avoided calls names supply) (hstem : call.stem? = some stem)
    (hissues : supply.Issues call stem n) :
    Accounts avoided (calls ++ [call]) (names ++ [numbered stem n]) (supply.answer call).2 := by
  have hlt : supply.counter < n := hissues.isLeast.1.1
  rw [hissues.answer_eq]
  refine ⟨fun name => ?_, ?_, ?_, ?_, fun name hname => ?_, ?_⟩
  · have hreserved : ¬ name ∈ call.reserved := reserved_of_stem? hstem
    simp only [NameSet.mem_insert, h.mem_taken_iff, List.mem_append, List.mem_singleton,
      or_and_right, exists_or, exists_eq_left, hreserved, or_false]
    rw [or_comm, or_assoc, or_assoc]
  · simp [h.issued_eq, hstem]
  · simp [h.length_eq]
  · simp [numericSuffix_numbered]
  · rcases List.mem_append.mp hname with hname | hname
    · exact Nat.le_trans (h.le_counter name hname) (Nat.le_of_lt hlt)
    · rw [List.mem_singleton.mp hname, numericSuffix_numbered]
  · rw [List.map_append, List.map_singleton, numericSuffix_numbered, List.pairwise_append]
    refine ⟨h.increasing, List.pairwise_singleton _ _, fun m hm k hk => ?_⟩
    obtain ⟨name, hname, rfl⟩ := List.mem_map.mp hm
    rw [List.mem_singleton.mp hk]
    exact Nat.lt_of_le_of_lt (h.le_counter name hname) hlt

/-- Any other call only puts names out of use. -/
theorem reserve (h : Accounts avoided calls names supply) (hstem : call.stem? = none) :
    Accounts avoided (calls ++ [call]) names (supply.answer call).2 := by
  rw [answer_of_stem?_eq_none hstem]
  refine ⟨fun name => ?_, ?_, h.length_eq, h.counter_eq, h.le_counter, h.increasing⟩
  · simp only [mem_taken_reserve, h.mem_taken_iff, List.mem_append, List.mem_singleton,
      or_and_right, exists_or, exists_eq_left]
    rw [or_left_comm, or_assoc]
    exact or_congr_right or_left_comm
  · simp [NameSupply.reserve, h.issued_eq, hstem]

end Accounts

theorem accounts_answers (avoided : NameSet) (calls : List Call) :
    Accounts avoided calls ((avoiding avoided).answers calls).1
      ((avoiding avoided).answers calls).2 := by
  induction calls using List.reverseRecOn with
  | nil => exact ⟨by simp [answers, avoiding], rfl, rfl, rfl, by simp [answers], .nil⟩
  | append_singleton calls call ih =>
    rw [answers_concat]
    cases hstem : call.stem? with
    | none =>
      have hreserve := ih.reserve hstem
      simpa [answer_of_stem?_eq_none hstem] using hreserve
    | some stem =>
      have hissues := issues_of_stem ((avoiding avoided).answers calls).2 hstem
      have hissue := ih.issue hstem hissues
      simpa [hissues.answer_eq] using hissue

/-- In every run of calls the numbers of the names increase, so no name is issued twice, and the
supply knows what is in use and how many names it issued. Whatever name it is asked for next, it
issues the one with the least number, and this was neither to be avoided nor reserved or issued
before. -/
theorem issues_after (avoided : NameSet) (calls : List Call) :
    Accounts avoided calls ((avoiding avoided).answers calls).1
      ((avoiding avoided).answers calls).2 ∧
      ((avoiding avoided).answers calls).1.Nodup ∧
      ∀ call stem, call.stem? = some stem →
        ∃ n, ((avoiding avoided).answers calls).2.Issues call stem n ∧
        numbered stem n ∉ avoided ∧ (∀ earlier ∈ calls, numbered stem n ∉ earlier.reserved) ∧
          numbered stem n ∉ ((avoiding avoided).answers calls).1 := by
  have haccounts := accounts_answers avoided calls
  refine ⟨haccounts, haccounts.nodup, fun call stem hstem => ?_⟩
  have hissues := issues_of_stem ((avoiding avoided).answers calls).2 hstem
  refine ⟨_, hissues, ?_⟩
  have hfresh := hissues.isLeast.1.2
  rw [haccounts.mem_taken_iff, not_or, not_or] at hfresh
  exact ⟨hfresh.1, fun earlier hearlier hmem => hfresh.2.1 ⟨earlier, hearlier, hmem⟩, hfresh.2.2⟩

/-- A variable for `x_1`, then a reserved name. -/
def variableThenReserved : List Call :=
  [.freshVariable "x_1", .reserve (.ofList ["f_4"])]

/-- The number of `X_1_2` is 2. A Skolem term then gets the number 5, since `f_3` was to be avoided
and `f_4` is reserved. -/
theorem issues_variableThenReserved :
    let avoided := NameSet.ofList ["X_1_1", "f_3"]
    let answers := (avoiding avoided).answers variableThenReserved
    answers.1 = ["X_1_2"] ∧ answers.2.counter = 2 ∧ (Call.freshSkolem []).stem? = some "f" ∧
      answers.2.Issues (.freshSkolem []) "f" 5 ∧ numbered "f" 5 ∉ avoided := by
  intro avoided answers
  have hanswer : (answers.2.answer (.freshSkolem [])).1 = some (numbered "f" 5) := by decide +kernel
  obtain ⟨n, hissues, hn, -⟩ :=
    (issues_after avoided variableThenReserved).2.2 (.freshSkolem []) "f" rfl
  rw [hissues.answer_eq] at hanswer
  obtain rfl : n = 5 := numbered_injective "f" (Option.some.inj hanswer)
  exact ⟨by decide +kernel, by decide +kernel, rfl, hissues, hn⟩

end NameSupply

end SignedTableaux
