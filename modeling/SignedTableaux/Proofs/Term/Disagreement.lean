import SignedTableaux.Proofs.Term.Names
import SignedTableaux.Term.Disagreement

/-!
# Terms that never part are equal

The comparison of two terms finds no disagreement just if they are equal. So two terms have a common
instance under a substitution just if their instances are equal. Which of two terms comes first does
not matter: the other order finds the same place, with the two subterms exchanged.

## Main definitions

* `Mismatch.swap` — the mismatch of two terms in the other order

## Main results

* `Term.disagreement?_eq_none_iff` — no disagreement means equality
* `Substitution.unify_eq_ok_iff` — the common instance of two terms
* `Term.disagreement?_swap`, `Substitution.unify_swap` — the two terms in the other order
-/

namespace SignedTableaux

namespace Term

theorem disagreementList?_eq_none_iff {as bs : List Term}
    (h : ∀ a ∈ as, ∀ b, a.disagreement? b = none ↔ a = b) (hlength : as.length = bs.length) :
    disagreementList? as bs = none ↔ as = bs := by
  induction as generalizing bs with
  | nil =>
    cases bs with
    | nil => simp [disagreementList?]
    | cons b bs => cases hlength
  | cons a as ih =>
    cases bs with
    | nil => cases hlength
    | cons b bs =>
      have htail := ih (fun a' ha' => h a' (List.mem_cons_of_mem _ ha')) (Nat.succ.inj hlength)
      rw [disagreementList?, Option.or_eq_none_iff, h a List.mem_cons_self b, htail,
        List.cons.injEq]

/-- Two terms without a disagreement are equal. -/
theorem disagreement?_eq_none_iff {s t : Term} : s.disagreement? t = none ↔ s = t := by
  induction s generalizing t with
  | app k f as ih =>
    cases t with
    | app l g bs =>
      rw [disagreement?]
      split
      · next hhead =>
        obtain ⟨rfl, rfl, hlength⟩ := hhead
        rw [disagreementList?_eq_none_iff (fun a ha b => ih a ha) hlength]
        simp
      · next hhead =>
        simp only [reduceCtorEq, false_iff]
        rintro ⟨⟩
        exact hhead ⟨rfl, rfl, rfl⟩
    | var | not | binary | quantified => simp [disagreement?]
  | var x =>
    cases t with
    | var y => simp [disagreement?]
    | app | not | binary | quantified => simp [disagreement?]
  | not s ih =>
    cases t with
    | not t => simp [disagreement?, ih]
    | app | var | binary | quantified => simp [disagreement?]
  | binary c s s' ih ih' =>
    cases t with
    | binary d t t' => by_cases h : c = d <;> simp [disagreement?, h, ih, ih']
    | app | var | not | quantified => simp [disagreement?]
  | quantified q x s ih =>
    cases t with
    | quantified r y t =>
      rw [disagreement?]
      split
      · next hhead => simp [hhead, ih]
      · next hhead => simpa using fun hq hx _ => hhead ⟨hq, hx⟩
    | app | var | not | binary => simp [disagreement?]

theorem disagreementList?_swap {as bs : List Term}
    (h : ∀ a ∈ as, ∀ b : Term, b.disagreement? a = (a.disagreement? b).map Prod.swap) :
    disagreementList? bs as = (disagreementList? as bs).map Prod.swap := by
  induction as generalizing bs with
  | nil => cases bs <;> rfl
  | cons a as ih =>
    cases bs with
    | nil => rfl
    | cons b bs =>
      have htail : disagreementList? bs as = (disagreementList? as bs).map Prod.swap :=
        ih fun a' ha' => h a' (List.mem_cons_of_mem _ ha')
      rw [disagreementList?, disagreementList?, h a List.mem_cons_self b, htail, Option.map_or]

/-- The first place where two terms part is the same from either side. -/
theorem disagreement?_swap (s t : Term) :
    t.disagreement? s = (s.disagreement? t).map Prod.swap := by
  induction s generalizing t with
  | app k f as ih =>
    cases t with
    | app l g bs =>
      rw [disagreement?, disagreement?]
      have hhead :
          l = k ∧ g = f ∧ bs.length = as.length ↔ k = l ∧ f = g ∧ as.length = bs.length := by
        rw [eq_comm, @eq_comm _ g, @eq_comm _ bs.length]
      simp only [hhead]
      split
      · exact disagreementList?_swap fun a ha b => ih a ha b
      · rfl
    | var | not | binary | quantified => simp [disagreement?]
  | var x =>
    cases t with
    | var y =>
      by_cases h : x = y
      · simp [disagreement?, h]
      · simp [disagreement?, h, Ne.symm h]
    | app | not | binary | quantified => simp [disagreement?]
  | not s ih =>
    cases t with
    | not t => rw [disagreement?, disagreement?, ih]
    | app | var | binary | quantified => simp [disagreement?]
  | binary c s s' ih ih' =>
    cases t with
    | binary d t t' =>
      by_cases h : c = d
      · simp [disagreement?, h, ih t, ih' t', Option.map_or]
      · simp [disagreement?, h, Ne.symm h]
    | app | var | not | quantified => simp [disagreement?]
  | quantified q x s ih =>
    cases t with
    | quantified r y t =>
      rw [disagreement?, disagreement?]
      have hhead : r = q ∧ y = x ↔ q = r ∧ x = y := by rw [eq_comm, @eq_comm _ y]
      simp only [hhead]
      split
      · exact ih t
      · rfl
    | app | var | not | binary => simp [disagreement?]

end Term

/-- Two terms have a common instance just if their instances are equal. -/
theorem Substitution.unify_eq_ok_iff {σ : Substitution} {s t u : Term} :
    σ.unify s t = .ok u ↔ σ.apply s = u ∧ σ.apply s = σ.apply t := by
  rw [unify, ← Term.disagreement?_eq_none_iff (t := σ.apply t)]
  cases (σ.apply s).disagreement? (σ.apply t) <;> simp

/-- The mismatch of two terms in the other order. -/
def Mismatch.swap (m : Mismatch) : Mismatch :=
  ⟨m.right, m.left, m.disagreement.swap⟩

/-- Two terms have the same common instance in either order, or the same mismatch the other way
round. -/
theorem Substitution.unify_swap (σ : Substitution) (s t : Term) :
    σ.unify t s = (σ.unify s t).mapError Mismatch.swap := by
  rw [unify, unify, Term.disagreement?_swap (σ.apply s)]
  cases h : (σ.apply s).disagreement? (σ.apply t) with
  | none => rw [Term.disagreement?_eq_none_iff.mp h]; rfl
  | some d => rfl

end SignedTableaux
