import Mathlib.Logic.Equiv.Basic
import SignedTableaux.Proofs.Tableau.Entries
import SignedTableaux.Proofs.Term.Renaming

/-!
# Relabeling a tableau

A tableau can be given other numbers and other names. Growth is the same for all labels, and growth
at one goal is independent of growth at another, but for the numbers of the new nodes: the later one
takes the next ones.

## Main definitions

* `Tableau.relabel` — the action of a function on numbers and a function on names
* `swapBlocks` — the exchange of two adjacent blocks of numbers

## Main results

* `Tableau.relabel_eq_self` — only the labels that occur matter
* `Tableau.relabel_graft`, `Tableau.relabel_ofExpansion` — relabeling and growth
* `Tableau.graft_comm` — growth at two goals
-/

namespace SignedTableaux

/-! ### Numbers and names -/

/-- The exchange of the `j` numbers from `start` on with the `k` numbers after them. -/
def swapBlocks (start j k : Nat) : Equiv.Perm Nat where
  toFun n :=
    if start ≤ n ∧ n < start + j then n + k
    else if start + j ≤ n ∧ n < start + j + k then n - j
    else n
  invFun n :=
    if start ≤ n ∧ n < start + k then n + j
    else if start + k ≤ n ∧ n < start + k + j then n - k
    else n
  left_inv n := by grind
  right_inv n := by grind

section SwapBlocks

variable {start j k n : Nat}

theorem swapBlocks_of_lt (h : n < start) : swapBlocks start j k n = n := by
  have hfirst : ¬ (start ≤ n ∧ n < start + j) := by omega
  have hsecond : ¬ (start + j ≤ n ∧ n < start + j + k) := by omega
  exact (if_neg hfirst).trans (if_neg hsecond)

theorem swapBlocks_first (h : n < j) : swapBlocks start j k (start + n) = start + k + n := by
  have hfirst : start ≤ start + n ∧ start + n < start + j := by omega
  exact (if_pos hfirst).trans (Nat.add_right_comm start n k)

theorem swapBlocks_second (h : n < k) : swapBlocks start j k (start + j + n) = start + n := by
  have hfirst : ¬ (start ≤ start + j + n ∧ start + j + n < start + j) := by omega
  have hsecond : start + j ≤ start + j + n ∧ start + j + n < start + j + k := by omega
  refine (if_neg hfirst).trans ((if_pos hsecond).trans ?_)
  omega

end SwapBlocks

/-- The fragment with every name replaced by its image. -/
def Fragment.mapNames (ρ : String → String) (f : Fragment) : Fragment :=
  ⟨⟨f.signed.sign, f.signed.formula.mapNames ρ⟩, f.introduced.map ρ⟩

namespace Expansion

/-- The expansion with every name replaced by its image. -/
def mapNames (ρ : String → String) : Expansion → Expansion
  | .linear first others => .linear (first.mapNames ρ) (others.map (Fragment.mapNames ρ))
  | .branching left right => .branching (left.mapNames ρ) (right.mapNames ρ)

end Expansion

/-- The origin with its number replaced by its image. -/
def Origin.relabel (π : NodeId → NodeId) (o : Origin) : Origin :=
  ⟨o.rule, π o.source⟩

/-- The entry with its numbers and names replaced by their images. -/
def Entry.relabel (π : NodeId → NodeId) (ρ : String → String) (e : Entry) : Entry :=
  ⟨π e.id, ⟨e.signed.sign, e.signed.formula.mapNames ρ⟩, e.introduced.map ρ,
    e.origin.map (Origin.relabel π)⟩

/-- Whether no label of an entry is moved. -/
structure Entry.IsFixed (e : Entry) (π : NodeId → NodeId) (ρ : String → String) : Prop where
  id_eq : π e.id = e.id
  source_eq : ∀ o, e.origin = some o → π o.source = o.source
  names_eq : ∀ x ∈ e.signed.formula.symbols, ρ x = x
  introduced_eq : ∀ x, e.introduced = some x → ρ x = x

theorem Entry.IsFixed.relabel_eq {e : Entry} {π : NodeId → NodeId} {ρ : String → String}
    (h : e.IsFixed π ρ) : e.relabel π ρ = e := by
  obtain ⟨id, signed, introduced, origin⟩ := e
  have horigin : origin.map (Origin.relabel π) = origin := by
    cases origin with
    | none => rfl
    | some o => rw [Option.map_some, Origin.relabel, h.source_eq o rfl]
  have hintroduced : introduced.map ρ = introduced := by
    cases introduced with
    | none => rfl
    | some x => exact congrArg some (h.introduced_eq x rfl)
  rw [relabel, horigin, hintroduced, h.id_eq, Term.mapNames_eq_self h.names_eq]

namespace Tableau

/-- The tableau with other numbers and other names. The substitutions that closed goals stay: what
they say about a name was settled when the goal was closed. -/
def relabel (π : NodeId → NodeId) (ρ : String → String) : Tableau → Tableau
  | .goal id closing => .goal (π id) closing
  | .step entry rest => .step (entry.relabel π ρ) (rest.relabel π ρ)
  | .fork left right => .fork (left.relabel π ρ) (right.relabel π ρ)

variable {π : NodeId → NodeId} {ρ : String → String} {t sub : Tableau} {g next : NodeId}

theorem relabel_eq_self (hgoals : ∀ g ∈ t.goals, π g = g)
    (hentries : ∀ e ∈ t.entries, e.IsFixed π ρ) : t.relabel π ρ = t := by
  induction t with
  | goal id closing => rw [relabel, hgoals id List.mem_cons_self]
  | step e rest ih =>
    obtain ⟨he, hrest⟩ := List.forall_mem_cons.mp hentries
    rw [relabel, he.relabel_eq, ih hgoals hrest]
  | fork left right ihl ihr =>
    obtain ⟨hl, hr⟩ := List.forall_mem_append.mp hgoals
    obtain ⟨hl', hr'⟩ := List.forall_mem_append.mp hentries
    rw [relabel, ihl hl hl', ihr hr hr']

theorem goals_relabel (t : Tableau) : (t.relabel π ρ).goals = t.goals.map π := by
  induction t with
  | goal id closing => rfl
  | step e rest ih => exact ih
  | fork left right ihl ihr => rw [relabel, goals, goals, ihl, ihr, List.map_append]

/-! ### Growth -/

theorem relabel_graft (hπ : Function.Injective π) (t : Tableau) :
    (t.graft g sub).relabel π ρ = (t.relabel π ρ).graft (π g) (sub.relabel π ρ) := by
  induction t with
  | goal id closing =>
    rw [graft, relabel, graft]
    by_cases hid : id = g
    · rw [if_pos hid, if_pos (congrArg π hid)]
    · rw [if_neg hid, if_neg (hπ.ne hid)]
      rfl
  | step e rest ih => rw [graft, relabel, relabel, graft, ih]
  | fork left right ihl ihr => rw [graft, relabel, relabel, graft, ihl, ihr]

theorem relabel_stack {next' : NodeId} {origin : Origin} {fragments : List Fragment}
    (h : ∀ i ≤ fragments.length, π (next + i) = next' + i) :
    (stack origin next fragments).relabel π ρ =
      stack (origin.relabel π) next' (fragments.map (Fragment.mapNames ρ)) := by
  induction fragments generalizing next next' with
  | nil => exact congrArg (goal · none) (h 0 (Nat.le_refl 0))
  | cons f others ih =>
    have hhead : π next = next' := h 0 (Nat.zero_le _)
    have hrest : ∀ i ≤ others.length, π (next + 1 + i) = next' + 1 + i := by
      intro i hi
      rw [Nat.add_right_comm, Nat.add_right_comm next']
      exact h (i + 1) (Nat.succ_le_succ hi)
    rw [stack, relabel, ih hrest, List.map_cons, stack, ← hhead]
    rfl

/-- A relabeled expansion grows from other numbers on. -/
theorem relabel_ofExpansion {next' : NodeId} {origin : Origin} {expansion : Expansion}
    (h : ∀ i < expansion.added, π (next + i) = next' + i) :
    (ofExpansion g next origin expansion).relabel π ρ =
      ofExpansion (π g) next' (origin.relabel π) (expansion.mapNames ρ) := by
  cases expansion with
  | linear first others =>
    exact congrArg (step _) (relabel_stack fun i hi => h i (Nat.lt_succ_of_le hi))
  | branching left right =>
    have hadded : (Expansion.branching left right).added = 3 := rfl
    rw [hadded] at h
    have hright : π next = next' := h 0 (by decide)
    have hgoal : π (next + 1) = next' + 1 := h 1 (by decide)
    have hgoal' : π (next + 2) = next' + 2 := h 2 (by decide)
    simp only [ofExpansion, relabel, entryOf, Entry.relabel, hright, hgoal, hgoal']
    rfl

/-- Growth at two goals, where neither gives rise to the other goal. -/
theorem graft_comm {g' : NodeId} {sub' : Tableau} (hne : g ≠ g') (hsub : g' ∉ sub.goals)
    (hsub' : g ∉ sub'.goals) (t : Tableau) :
    (t.graft g sub).graft g' sub' = (t.graft g' sub').graft g sub := by
  induction t with
  | goal id closing =>
    by_cases hg : id = g
    · rw [graft, if_pos hg, graft_of_not_mem hsub, graft, if_neg (hg ▸ hne), graft, if_pos hg]
    · rw [graft, if_neg hg, graft]
      split
      · exact (graft_of_not_mem hsub').symm
      · rw [graft, if_neg hg]
  | step e rest ih => rw [graft, graft, graft, graft, ih]
  | fork left right ihl ihr => rw [graft, graft, graft, graft, ihl, ihr]

theorem not_mem_goals_ofExpansion {id goal next : NodeId} {origin : Origin}
    {expansion : Expansion} (hne : id ≠ goal) (hlt : id < next) :
    id ∉ (ofExpansion goal next origin expansion).goals := by
  intro h
  obtain ⟨n, hperm⟩ := ids_ofExpansion_perm goal next origin expansion
  rcases List.mem_cons.mp (hperm.mem_iff.mp (goals_subset_ids h)) with rfl | hmem
  · exact hne rfl
  · exact absurd (List.mem_range'_1.mp hmem).1 (Nat.not_le.mpr hlt)

end Tableau

end SignedTableaux
