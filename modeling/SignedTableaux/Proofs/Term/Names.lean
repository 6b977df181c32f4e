import Mathlib.Data.List.Basic
import SignedTableaux.Term.Basic

/-!
# Names in a term

An induction principle for terms that passes over argument lists, and how the free variables, the
bound names and the symbols of a term are related.

## Main definitions

* `Term.boundNames` — the names that the quantifiers of a term bind
* `Term.symbolsOf` — the names of its predicates or of its functions
* `Term.Closed` — no variable is free

## Main results

* `Term.induction` — a property that passes from the parts to the whole holds of every term
* `Term.freeVars_subset_symbols`, `Term.boundNames_subset_symbols`, `Term.symbolsOf_subset_symbols`
  — every name is a symbol
* `Term.mem_symbols_cases` — every symbol is a predicate, a function, a free variable or bound
-/

namespace SignedTableaux

/-- A set of names is determined by its members. -/
theorem NameSet.ext {s t : NameSet} (h : ∀ x, x ∈ s ↔ x ∈ t) : s = t := by
  obtain ⟨xs, hxs⟩ := s
  obtain ⟨ys, hys⟩ := t
  have hperm : xs.Perm ys :=
    (List.perm_ext_iff_of_nodup (hxs.imp String.ne_of_lt) (hys.imp String.ne_of_lt)).mpr h
  have hanti : ∀ a b : String, a < b → b < a → a = b := fun a b hab hba =>
    (String.lt_irrefl a (String.lt_trans hab hba)).elim
  obtain rfl : xs = ys := hperm.eq_of_pairwise (fun a b _ _ => hanti a b) hxs hys
  rfl

namespace Term

/-- A property that passes from the parts of a term to the term holds of every term. -/
@[elab_as_elim, induction_eliminator]
theorem induction {P : Term → Prop}
    (app : ∀ kind symbol args, (∀ arg ∈ args, P arg) → P (.app kind symbol args))
    (var : ∀ name, P (.var name))
    (not : ∀ arg, P arg → P (.not arg))
    (binary : ∀ op lhs rhs, P lhs → P rhs → P (.binary op lhs rhs))
    (quantified : ∀ q bound body, P body → P (.quantified q bound body)) (t : Term) : P t :=
  @Term.rec P (fun ts => ∀ t ∈ ts, P t) app var not binary quantified
    (fun _ h => absurd h List.not_mem_nil)
    (fun _ _ hhead htail => List.forall_mem_cons.mpr ⟨hhead, htail⟩) t

mutual

/-- The names that the quantifiers of a term bind. -/
def boundNames : Term → NameSet
  | .app _ _ args => boundNamesList args
  | .var _ => ∅
  | .not t => t.boundNames
  | .binary _ l r => l.boundNames ∪ r.boundNames
  | .quantified _ x body => body.boundNames.insert x

/-- The names that the quantifiers of the terms of a list bind. -/
def boundNamesList : List Term → NameSet
  | [] => ∅
  | t :: ts => t.boundNames ∪ boundNamesList ts

end

mutual

/-- The names of the applied symbols of a kind. -/
def symbolsOf (kind : SymbolKind) : Term → NameSet
  | .app k f args =>
    if k = kind then (symbolsOfList kind args).insert f else symbolsOfList kind args
  | .var _ => ∅
  | .not t => t.symbolsOf kind
  | .binary _ l r => l.symbolsOf kind ∪ r.symbolsOf kind
  | .quantified _ _ body => body.symbolsOf kind

/-- The names of the applied symbols of a kind in the terms of a list. -/
def symbolsOfList (kind : SymbolKind) : List Term → NameSet
  | [] => ∅
  | t :: ts => t.symbolsOf kind ∪ symbolsOfList kind ts

end

/-- Whether no variable is free. -/
def Closed (t : Term) : Prop :=
  ∀ x, x ∉ t.freeVars

variable {x y : String} {t : Term}

theorem mem_freeVarsList {ts : List Term} : y ∈ freeVarsList ts ↔ ∃ t ∈ ts, y ∈ t.freeVars := by
  induction ts with
  | nil => simp [freeVarsList]
  | cons t ts ih => simp [freeVarsList, ih]

theorem mem_symbolsList {ts : List Term} : y ∈ symbolsList ts ↔ ∃ t ∈ ts, y ∈ t.symbols := by
  induction ts with
  | nil => simp [symbolsList]
  | cons t ts ih => simp [symbolsList, ih]

theorem mem_boundNamesList {ts : List Term} :
    y ∈ boundNamesList ts ↔ ∃ t ∈ ts, y ∈ t.boundNames := by
  induction ts with
  | nil => simp [boundNamesList]
  | cons t ts ih => simp [boundNamesList, ih]

theorem mem_symbolsOfList {kind : SymbolKind} {ts : List Term} :
    y ∈ symbolsOfList kind ts ↔ ∃ t ∈ ts, y ∈ t.symbolsOf kind := by
  induction ts with
  | nil => simp [symbolsOfList]
  | cons t ts ih => simp [symbolsOfList, ih]

section Members

variable (k : SymbolKind) (f : String) (args : List Term) (c : Connective) (q : Quantifier)
  (l r body : Term)

@[simp] theorem mem_freeVars_app :
    y ∈ (app k f args).freeVars ↔ ∃ arg ∈ args, y ∈ arg.freeVars :=
  mem_freeVarsList

@[simp] theorem mem_freeVars_var : y ∈ (var x).freeVars ↔ y = x :=
  NameSet.mem_single

@[simp] theorem mem_freeVars_not : y ∈ (not t).freeVars ↔ y ∈ t.freeVars :=
  Iff.rfl

@[simp] theorem mem_freeVars_binary :
    y ∈ (binary c l r).freeVars ↔ y ∈ l.freeVars ∨ y ∈ r.freeVars :=
  NameSet.mem_union

@[simp] theorem mem_freeVars_quantified :
    y ∈ (quantified q x body).freeVars ↔ y ∈ body.freeVars ∧ y ≠ x :=
  NameSet.mem_erase

@[simp] theorem mem_symbols_app :
    y ∈ (app k f args).symbols ↔ y = f ∨ ∃ arg ∈ args, y ∈ arg.symbols :=
  NameSet.mem_insert.trans (or_congr_right mem_symbolsList)

@[simp] theorem mem_symbols_var : y ∈ (var x).symbols ↔ y = x :=
  NameSet.mem_single

@[simp] theorem mem_symbols_not : y ∈ (not t).symbols ↔ y ∈ t.symbols :=
  Iff.rfl

@[simp] theorem mem_symbols_binary :
    y ∈ (binary c l r).symbols ↔ y ∈ l.symbols ∨ y ∈ r.symbols :=
  NameSet.mem_union

@[simp] theorem mem_symbols_quantified :
    y ∈ (quantified q x body).symbols ↔ y = x ∨ y ∈ body.symbols :=
  NameSet.mem_insert

@[simp] theorem mem_boundNames_app :
    y ∈ (app k f args).boundNames ↔ ∃ arg ∈ args, y ∈ arg.boundNames :=
  mem_boundNamesList

@[simp] theorem not_mem_boundNames_var : y ∉ (var x).boundNames :=
  NameSet.not_mem_empty y

@[simp] theorem mem_boundNames_not : y ∈ (not t).boundNames ↔ y ∈ t.boundNames :=
  Iff.rfl

@[simp] theorem mem_boundNames_binary :
    y ∈ (binary c l r).boundNames ↔ y ∈ l.boundNames ∨ y ∈ r.boundNames :=
  NameSet.mem_union

@[simp] theorem mem_boundNames_quantified :
    y ∈ (quantified q x body).boundNames ↔ y = x ∨ y ∈ body.boundNames :=
  NameSet.mem_insert

variable {kind : SymbolKind}

@[simp] theorem mem_symbolsOf_app :
    y ∈ (app k f args).symbolsOf kind ↔
      k = kind ∧ y = f ∨ ∃ arg ∈ args, y ∈ arg.symbolsOf kind := by
  rw [← mem_symbolsOfList, symbolsOf]
  split
  · next hk => simp [hk]
  · next hk => simp [hk]

@[simp] theorem not_mem_symbolsOf_var : y ∉ (var x).symbolsOf kind :=
  NameSet.not_mem_empty y

@[simp] theorem mem_symbolsOf_not : y ∈ (not t).symbolsOf kind ↔ y ∈ t.symbolsOf kind :=
  Iff.rfl

@[simp] theorem mem_symbolsOf_binary :
    y ∈ (binary c l r).symbolsOf kind ↔ y ∈ l.symbolsOf kind ∨ y ∈ r.symbolsOf kind :=
  NameSet.mem_union

@[simp] theorem mem_symbolsOf_quantified :
    y ∈ (quantified q x body).symbolsOf kind ↔ y ∈ body.symbolsOf kind :=
  Iff.rfl

end Members

theorem freeVars_subset_symbols (h : y ∈ t.freeVars) : y ∈ t.symbols := by
  induction t with
  | app k f args ih =>
    obtain ⟨arg, harg, hy⟩ := (mem_freeVars_app k f args).mp h
    exact (mem_symbols_app k f args).mpr (.inr ⟨arg, harg, ih arg harg hy⟩)
  | var x => simpa using h
  | not t ih => simpa using ih (by simpa using h)
  | binary c l r ihl ihr =>
    rw [mem_symbols_binary]
    exact ((mem_freeVars_binary c l r).mp h).imp ihl ihr
  | quantified q x body ih =>
    rw [mem_symbols_quantified]
    exact .inr (ih ((mem_freeVars_quantified q body).mp h).1)

theorem boundNames_subset_symbols (h : y ∈ t.boundNames) : y ∈ t.symbols := by
  induction t with
  | app k f args ih =>
    obtain ⟨arg, harg, hy⟩ := (mem_boundNames_app k f args).mp h
    exact (mem_symbols_app k f args).mpr (.inr ⟨arg, harg, ih arg harg hy⟩)
  | var x => exact absurd h not_mem_boundNames_var
  | not t ih => simpa using ih (by simpa using h)
  | binary c l r ihl ihr =>
    rw [mem_symbols_binary]
    exact ((mem_boundNames_binary c l r).mp h).imp ihl ihr
  | quantified q x body ih =>
    rw [mem_symbols_quantified]
    exact ((mem_boundNames_quantified q body).mp h).imp_right ih

theorem symbolsOf_subset_symbols {kind : SymbolKind} (h : y ∈ t.symbolsOf kind) :
    y ∈ t.symbols := by
  induction t with
  | app k f args ih =>
    rcases (mem_symbolsOf_app k f args).mp h with ⟨-, rfl⟩ | ⟨arg, harg, hy⟩
    · exact (mem_symbols_app k _ args).mpr (.inl rfl)
    · exact (mem_symbols_app k f args).mpr (.inr ⟨arg, harg, ih arg harg hy⟩)
  | var x => exact absurd h not_mem_symbolsOf_var
  | not t ih => simpa using ih (by simpa using h)
  | binary c l r ihl ihr =>
    rw [mem_symbols_binary]
    exact ((mem_symbolsOf_binary c l r).mp h).imp ihl ihr
  | quantified q x body ih =>
    rw [mem_symbols_quantified]
    exact .inr (ih ((mem_symbolsOf_quantified q body).mp h))

/-- Every symbol is a predicate, a function, a free variable or a bound name. -/
theorem mem_symbols_cases (h : y ∈ t.symbols) :
    (∃ kind, y ∈ t.symbolsOf kind) ∨ y ∈ t.freeVars ∨ y ∈ t.boundNames := by
  induction t with
  | app k f args ih =>
    rcases (mem_symbols_app k f args).mp h with rfl | ⟨arg, harg, hy⟩
    · exact .inl ⟨k, by simp⟩
    · rcases ih arg harg hy with ⟨kind, hkind⟩ | hfree | hbound
      · exact .inl ⟨kind, (mem_symbolsOf_app k f args).mpr (.inr ⟨arg, harg, hkind⟩)⟩
      · exact .inr (.inl ((mem_freeVars_app k f args).mpr ⟨arg, harg, hfree⟩))
      · exact .inr (.inr ((mem_boundNames_app k f args).mpr ⟨arg, harg, hbound⟩))
  | var x => exact .inr (.inl (by simpa using h))
  | not t ih => simpa using ih (by simpa using h)
  | binary c l r ihl ihr =>
    have hparts := ((mem_symbols_binary c l r).mp h).imp ihl ihr
    simp only [mem_symbolsOf_binary, mem_freeVars_binary, mem_boundNames_binary, exists_or]
    grind
  | quantified q x body ih =>
    have hparts := ((mem_symbols_quantified q body).mp h).imp_right ih
    simp only [mem_symbolsOf_quantified, mem_freeVars_quantified, mem_boundNames_quantified]
    grind

end Term

end SignedTableaux
