import Mathlib.Data.List.Induction
import SignedTableaux.Substitution.Basic
import SignedTableaux.Proofs.FreshNames
import SignedTableaux.Proofs.Term.Names

/-!
# Substitutions as finite maps

What a substitution maps a name to after `insert`, how domain and images are read off it, and what
the name of a renamed binder avoids.

## Main results

* `Substitution.get?_insert`, `Substitution.mem_domain_iff` — a substitution is a finite map
* `Substitution.ofList_eq_iff` — the substitution of a list of bindings
* `Substitution.captures_iff` — a binder captures where an image that reaches the body has it free
* `Substitution.freshBinder_not_mem` — a renamed binder avoids the body, the domain and all images
-/

namespace SignedTableaux.Substitution

variable {σ : Substitution} {x y : String} {t body : Term}

theorem lookup_bindAscending_self (bs : List (String × Term)) :
    (bindAscending x t bs).lookup x = some t := by
  induction bs with
  | nil => simp [bindAscending]
  | cons b bs ih =>
    rw [bindAscending]
    split
    · exact List.lookup_cons_self
    · split
      · exact List.lookup_cons_self
      · next hne => rw [List.lookup_cons, beq_false_of_ne hne, ih]

theorem lookup_bindAscending_of_ne (h : y ≠ x) (bs : List (String × Term)) :
    (bindAscending x t bs).lookup y = bs.lookup y := by
  have hbeq : (y == x) = false := beq_false_of_ne h
  induction bs with
  | nil => rw [bindAscending, List.lookup_cons, hbeq]
  | cons b bs ih =>
    rw [bindAscending]
    split
    · rw [List.lookup_cons, hbeq]
    · split
      · next heq => rw [List.lookup_cons, List.lookup_cons, ← heq, hbeq]
      · rw [List.lookup_cons, List.lookup_cons, ih]

@[simp] theorem get?_empty : (∅ : Substitution).get? y = none := rfl

theorem get?_insert : (σ.insert x t).get? y = if y = x then some t else σ.get? y := by
  split
  · next h => exact h ▸ lookup_bindAscending_self σ.bindings
  · next h => exact lookup_bindAscending_of_ne h σ.bindings

theorem get?_single : (single x t).get? y = if y = x then some t else none :=
  get?_insert

/-- The bindings of a substitution are the pairs of a name and what it is mapped to. -/
theorem mem_bindings_iff : (x, t) ∈ σ.bindings ↔ σ.get? x = some t := by
  obtain ⟨bs, hbs⟩ := σ
  change (x, t) ∈ bs ↔ bs.lookup x = some t
  induction bs with
  | nil => simp
  | cons b bs ih =>
    obtain ⟨y, u⟩ := b
    rw [List.map_cons, List.pairwise_cons] at hbs
    rw [List.mem_cons, List.lookup_cons, ih hbs.2]
    by_cases hxy : x = y
    · subst hxy
      have hnot : bs.lookup x ≠ some t := fun h =>
        String.lt_irrefl x (hbs.1 x (List.mem_map.mpr ⟨_, (ih hbs.2).mpr h, rfl⟩))
      simp [hnot, eq_comm]
    · simp [hxy, beq_false_of_ne hxy]

theorem mem_domain_iff : x ∈ σ.domain ↔ ∃ t, σ.get? x = some t := by
  change x ∈ σ.bindings.map Prod.fst ↔ _
  simp [← mem_bindings_iff]

theorem get?_eq_none (h : x ∉ σ.domain) : σ.get? x = none := by
  rw [Option.eq_none_iff_forall_ne_some]
  exact fun t ht => h (mem_domain_iff.mpr ⟨t, ht⟩)

@[simp] theorem mem_domain_insert : y ∈ (σ.insert x t).domain ↔ y = x ∨ y ∈ σ.domain := by
  simp only [mem_domain_iff, get?_insert]
  by_cases h : y = x <;> simp [h]

@[simp] theorem mem_domain_single : y ∈ (single x t).domain ↔ y = x := by
  simp [mem_domain_iff, get?_single]

theorem mem_imageSymbols : y ∈ σ.imageSymbols ↔ ∃ x t, σ.get? x = some t ∧ y ∈ t.symbols := by
  simp only [imageSymbols, Term.mem_symbolsList, List.mem_map, Prod.exists, exists_eq_right,
    mem_bindings_iff]
  exact ⟨fun ⟨t, ⟨x, hx⟩, hy⟩ => ⟨x, t, hx, hy⟩, fun ⟨x, t, hx, hy⟩ => ⟨t, ⟨x, hx⟩, hy⟩⟩

/-! ### Lists of bindings -/

variable {bs : List (String × Term)}

theorem ofList_concat (bs : List (String × Term)) (b : String × Term) :
    ofList (bs ++ [b]) = (ofList bs).insert b.1 b.2 := by
  rw [ofList, List.foldl_append]
  rfl

theorem mem_domain_ofList : x ∈ (ofList bs).domain ↔ x ∈ bs.map Prod.fst := by
  induction bs using List.reverseRecOn with
  | nil => simp [ofList, mem_domain_iff]
  | append_singleton bs b ih => simp [ofList_concat, ih, or_comm]

theorem perm_bindAscending (h : x ∉ bs.map Prod.fst) :
    (bindAscending x t bs).Perm ((x, t) :: bs) := by
  induction bs with
  | nil => exact .refl _
  | cons b bs ih =>
    rw [List.map_cons, List.mem_cons, not_or] at h
    rw [bindAscending]
    split
    · exact .refl _
    · rw [if_neg h.1]
      exact ((ih h.2).cons b).trans (.swap ..)

/-- The substitution of a list has its bindings, if no name is bound twice. -/
theorem perm_bindings_ofList (h : (bs.map Prod.fst).Nodup) : (ofList bs).bindings.Perm bs := by
  induction bs using List.reverseRecOn with
  | nil => exact .refl _
  | append_singleton bs b ih =>
    rw [List.map_append, List.map_singleton, List.nodup_append] at h
    have hperm := ih h.1
    have hfresh : b.1 ∉ (ofList bs).bindings.map Prod.fst := by
      rw [(hperm.map Prod.fst).mem_iff]
      exact fun hmem => h.2.2 _ hmem _ List.mem_cons_self rfl
    have hinsert := (perm_bindAscending (t := b.2) hfresh).trans (hperm.cons b)
    rw [ofList_concat]
    exact hinsert.trans (List.perm_append_singleton b bs).symm

theorem eq_of_perm {τ : Substitution} (h : σ.bindings.Perm τ.bindings) : σ = τ := by
  obtain ⟨bs, hbs⟩ := σ
  obtain ⟨cs, hcs⟩ := τ
  have hanti : ∀ a b : String × Term, a.1 < b.1 → b.1 < a.1 → a = b := fun a b hab hba =>
    (String.lt_irrefl a.1 (String.lt_trans hab hba)).elim
  obtain rfl : bs = cs :=
    h.eq_of_pairwise (fun a b _ _ => hanti a b)
      (List.pairwise_map.mp hbs) (List.pairwise_map.mp hcs)
  rfl

/-- The substitution of a list that binds no name twice maps each name as the list does, and no
other. -/
theorem ofList_eq_iff (h : (bs.map Prod.fst).Nodup) :
    ofList bs = σ ↔ (∀ b ∈ bs, σ.get? b.1 = some b.2) ∧ σ.size = bs.length := by
  have hperm := perm_bindings_ofList h
  constructor
  · rintro rfl
    exact ⟨fun b hb => mem_bindings_iff.mp (hperm.mem_iff.mpr hb), hperm.length_eq⟩
  · rintro ⟨hget, hsize⟩
    have hsubset : bs ⊆ σ.bindings := fun b hb => mem_bindings_iff.mpr (hget b hb)
    have hsubperm := List.subperm_of_subset h.of_map hsubset
    exact eq_of_perm (hperm.trans (hsubperm.perm_of_length_le (Nat.le_of_eq hsize)))

/-! ### Binders -/

theorem captures_iff :
    σ.captures x body ↔
      ∃ y image, σ.get? y = some image ∧ y ∈ body.freeVars ∧ x ∈ image.freeVars := by
  simp [captures, ← mem_bindings_iff]

theorem freshBinder_not_mem :
    σ.freshBinder x body ∉ body.symbols ∧ σ.freshBinder x body ∉ σ.domain ∧
      σ.freshBinder x body ∉ σ.imageSymbols := by
  have h : σ.freshBinder x body ∉ σ.avoided body :=
    (σ.avoided body).numbered_leastUnused_not_mem x 1
  simpa [avoided, not_or] using h

/-! ### Equations for application -/

theorem applyList_eq_map (ts : List Term) : σ.applyList ts = ts.map σ.apply := by
  induction ts with
  | nil => rw [applyList, List.map_nil]
  | cons t ts ih => rw [applyList, ih, List.map_cons]

@[simp] theorem apply_app (k : SymbolKind) (f : String) (args : List Term) :
    σ.apply (.app k f args) = .app k f (args.map σ.apply) :=
  congrArg (Term.app k f) (applyList_eq_map args)

@[simp] theorem apply_var : σ.apply (.var x) = (σ.get? x).getD (.var x) := rfl

@[simp] theorem apply_not : σ.apply (.not t) = .not (σ.apply t) := rfl

@[simp] theorem apply_binary (c : Connective) (l r : Term) :
    σ.apply (.binary c l r) = .binary c (σ.apply l) (σ.apply r) := rfl

variable {q : Quantifier}

theorem apply_quantified_of_mem (h : x ∈ σ.domain) :
    σ.apply (.quantified q x body) = .quantified q x body :=
  if_pos h

theorem apply_quantified_of_captures (h : x ∉ σ.domain) (hc : σ.captures x body) :
    σ.apply (.quantified q x body) =
      .quantified q (σ.freshBinder x body)
        ((σ.insert x (.var (σ.freshBinder x body))).apply body) :=
  (if_neg h).trans (if_pos hc)

theorem apply_quantified_of_not_captures (h : x ∉ σ.domain) (hc : ¬ σ.captures x body) :
    σ.apply (.quantified q x body) = .quantified q x (σ.apply body) :=
  (if_neg h).trans (if_neg hc)

end SignedTableaux.Substitution
