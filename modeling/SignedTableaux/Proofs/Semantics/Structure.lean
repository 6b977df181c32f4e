import Mathlib.Logic.Function.Basic
import SignedTableaux.Proofs.Term.Names
import SignedTableaux.Tableau.Signed

/-!
# Structures

What a formula says: its truth in a first-order structure under an assignment of values to
variables. Terms and formulas are one type, so that a formula has an arbitrary value, and an object
is never true.

## Main definitions

* `Structure` — an interpretation of symbols by name and number of arguments
* `Term.value`, `Term.holds` — the value of an object, and the truth of a formula
* `Term.IsTrueIn` — truth under every assignment
* `Signed.holds`, `Decomposition.holds` — the truth of what is affirmed or denied, and of its parts

## Main results

* `Term.holds_congr` — truth depends on the interpretation of the symbols that occur and on the
  values of the free variables
* `Signed.holds_iff_of_decomposition?` — a signed formula says the same as its parts
-/

namespace SignedTableaux

universe u

/-- A first-order structure with domain `D`. A list of arguments tells their number, so a symbol has
one meaning for each number of arguments. -/
structure Structure (D : Type u) where
  fn : String → List D → D
  pred : String → List D → Prop

variable {D : Type u} [Nonempty D]

namespace Term

mutual

/-- The value of an object under an assignment; a formula has an arbitrary value. -/
noncomputable def value (M : Structure D) (ρ : String → D) : Term → D
  | .fn f args => M.fn f (valueList M ρ args)
  | .var x => ρ x
  | .pred .. | .not _ | .binary .. | .quantified .. => Classical.arbitrary D

/-- The values of a list of objects. -/
noncomputable def valueList (M : Structure D) (ρ : String → D) : List Term → List D
  | [] => []
  | t :: ts => value M ρ t :: valueList M ρ ts

end

/-- The truth of a formula under an assignment; an object is not true. -/
def holds (M : Structure D) : (String → D) → Term → Prop
  | ρ, .pred p args => M.pred p (args.map (value M ρ))
  | _, .fn .. | _, .var _ => False
  | ρ, .not t => ¬ holds M ρ t
  | ρ, .binary .and l r => holds M ρ l ∧ holds M ρ r
  | ρ, .binary .or l r => holds M ρ l ∨ holds M ρ r
  | ρ, .binary .implies l r => holds M ρ l → holds M ρ r
  | ρ, .quantified .universal x body => ∀ d, holds M (Function.update ρ x d) body
  | ρ, .quantified .existential x body => ∃ d, holds M (Function.update ρ x d) body

/-- Whether a formula is true in a structure, whatever its free variables stand for. -/
def IsTrueIn (t : Term) (M : Structure D) : Prop :=
  ∀ ρ, t.holds M ρ

variable {M M' : Structure D} {ρ ρ' : String → D} {t : Term}

theorem valueList_eq_map (ts : List Term) : valueList M ρ ts = ts.map (value M ρ) := by
  induction ts with
  | nil => rw [valueList, List.map_nil]
  | cons t ts ih => rw [valueList, ih, List.map_cons]

@[simp] theorem value_fn (f : String) (args : List Term) :
    (fn f args).value M ρ = M.fn f (args.map (value M ρ)) := by
  rw [value, valueList_eq_map]

@[simp] theorem value_var (x : String) : (var x).value M ρ = ρ x := by
  rw [value]

theorem value_of_isFormula (h : t.isFormula) : t.value M ρ = Classical.arbitrary D := by
  cases t with
  | app k f args =>
    cases k with
    | predicate => rw [value]
    | function => simp [isFormula] at h
  | var x => simp [isFormula] at h
  | not t => rw [value]
  | binary c l r => rw [value]
  | quantified q x body => rw [value]

theorem not_holds_of_isFormula_eq_false (h : t.isFormula = false) : ¬ t.holds M ρ := by
  cases t with
  | app k f args =>
    cases k with
    | predicate => simp [isFormula] at h
    | function => simp [holds]
  | var x => simp [holds]
  | not t => simp [isFormula] at h
  | binary c l r => simp [isFormula] at h
  | quantified q x body => simp [isFormula] at h

/-! ### Coincidence -/

/-- The value of an object depends on the function symbols that occur and on the values of its
variables. -/
theorem value_congr (hfn : ∀ f ∈ t.symbols, M.fn f = M'.fn f)
    (hvar : ∀ x ∈ t.freeVars, ρ x = ρ' x) : t.value M ρ = t.value M' ρ' := by
  induction t with
  | app k f args ih =>
    cases k with
    | predicate => rw [value_of_isFormula rfl, value_of_isFormula rfl]
    | function =>
      have hargs : args.map (value M ρ) = args.map (value M' ρ') := by
        refine List.map_congr_left fun arg harg => ih arg harg (fun g hg => ?_) (fun x hx => ?_)
        · exact hfn g ((mem_symbols_app ..).mpr (.inr ⟨arg, harg, hg⟩))
        · exact hvar x ((mem_freeVars_app ..).mpr ⟨arg, harg, hx⟩)
      rw [value_fn, value_fn, hargs, hfn f ((mem_symbols_app ..).mpr (.inl rfl))]
  | var x =>
    rw [value_var, value_var]
    exact hvar x (mem_freeVars_var.mpr rfl)
  | not t ih => rw [value_of_isFormula rfl, value_of_isFormula rfl]
  | binary c l r ihl ihr => rw [value_of_isFormula rfl, value_of_isFormula rfl]
  | quantified q x body ih => rw [value_of_isFormula rfl, value_of_isFormula rfl]

/-- The truth of a formula depends on the predicates, on the function symbols that occur, and on the
values of its free variables. -/
theorem holds_congr (hpred : M.pred = M'.pred) (hfn : ∀ f ∈ t.symbols, M.fn f = M'.fn f)
    (hvar : ∀ x ∈ t.freeVars, ρ x = ρ' x) : t.holds M ρ ↔ t.holds M' ρ' := by
  induction t generalizing ρ ρ' with
  | app k p args ih =>
    cases k with
    | predicate =>
      have hargs : args.map (value M ρ) = args.map (value M' ρ') := by
        refine List.map_congr_left fun arg harg => value_congr (fun g hg => ?_) (fun x hx => ?_)
        · exact hfn g ((mem_symbols_app ..).mpr (.inr ⟨arg, harg, hg⟩))
        · exact hvar x ((mem_freeVars_app ..).mpr ⟨arg, harg, hx⟩)
      simp only [holds, hpred, hargs]
    | function => simp only [holds]
  | var x => simp only [holds]
  | not t ih =>
    have h := ih (fun f hf => hfn f (by simpa using hf)) (fun x hx => hvar x (by simpa using hx))
    simp only [holds, h]
  | binary c l r ihl ihr =>
    have hl := ihl (fun f hf => hfn f (by simp [hf])) (fun x hx => hvar x (by simp [hx]))
    have hr := ihr (fun f hf => hfn f (by simp [hf])) (fun x hx => hvar x (by simp [hx]))
    cases c <;> simp only [holds, hl, hr]
  | quantified q x body ih =>
    have hbody (d : D) : body.holds M (Function.update ρ x d) ↔
        body.holds M' (Function.update ρ' x d) := by
      refine ih (fun f hf => hfn f (by simp [hf])) (fun y hy => ?_)
      by_cases hyx : y = x
      · simp [hyx]
      · rw [Function.update_of_ne hyx, Function.update_of_ne hyx]
        exact hvar y (by simp [hy, hyx])
    cases q <;> simp only [holds, hbody]

theorem holds_update_of_not_mem {x : String} {d : D} (h : x ∉ t.freeVars) :
    t.holds M (Function.update ρ x d) ↔ t.holds M ρ := by
  refine holds_congr rfl (fun _ _ => rfl) fun y hy => Function.update_of_ne ?_ _ _
  rintro rfl
  exact h hy

end Term

/-! ### Signed formulas -/

/-- Whether a formula is true, if it is affirmed, or false, if it is denied. -/
def Signed.holds (M : Structure D) (ρ : String → D) : Signed → Prop
  | ⟨.affirmed, t⟩ => t.holds M ρ
  | ⟨.denied, t⟩ => ¬ t.holds M ρ

/-- Whether all parts hold, one of two parts does, or all instances or some instance of a body. -/
def Decomposition.holds (M : Structure D) (ρ : String → D) : Decomposition → Prop
  | .alpha first others => ∀ s ∈ first :: others, s.holds M ρ
  | .beta left right => left.holds M ρ ∨ right.holds M ρ
  | .gamma sign x body => ∀ d, Signed.holds M (Function.update ρ x d) ⟨sign, body⟩
  | .delta sign x body => ∃ d, Signed.holds M (Function.update ρ x d) ⟨sign, body⟩

namespace Signed

variable {M M' : Structure D} {ρ ρ' : String → D}

theorem holds_congr {s : Signed} (h : s.formula.holds M ρ ↔ s.formula.holds M' ρ') :
    s.holds M ρ ↔ s.holds M' ρ' := by
  obtain ⟨sign, t⟩ := s
  cases sign
  · exact h
  · exact not_congr h

theorem holds_flip {sign : Sign} {t : Term} :
    Signed.holds M ρ ⟨sign.flip, t⟩ ↔ Signed.holds M ρ ⟨sign, .not t⟩ := by
  cases sign <;> simp [Signed.holds, Sign.flip, Term.holds]

/-- A signed formula says the same as its parts. -/
theorem holds_iff_of_decomposition? {s : Signed} {d : Decomposition}
    (h : s.decomposition? = some d) : s.holds M ρ ↔ d.holds M ρ := by
  obtain ⟨sign, t⟩ := s
  cases t with
  | app k f args => simp [decomposition?] at h
  | var x => simp [decomposition?] at h
  | not t =>
    obtain rfl := Option.some.inj h
    simp [Decomposition.holds, holds_flip]
  | binary c l r =>
    cases sign <;> cases c <;> obtain rfl := Option.some.inj h
    case affirmed.implies =>
      simp only [Signed.holds, Decomposition.holds, Term.holds, imp_iff_not_or]
    case denied.and =>
      simp only [Signed.holds, Decomposition.holds, Term.holds, Classical.not_and_iff_not_or_not]
    all_goals simp [Signed.holds, Decomposition.holds, Term.holds]
  | quantified q x body =>
    cases sign <;> cases q <;> obtain rfl := Option.some.inj h <;>
      simp [Signed.holds, Decomposition.holds, Term.holds]

end Signed

end SignedTableaux
