import SignedTableaux.Proofs.Term.Names

/-!
# Terms up to the choice of bound names

A nameless term keeps the names of free variables and replaces every bound occurrence by the number
of quantifiers between it and the one that binds it. Terms that differ only in the choice of bound
names have the same nameless form, and no quantifier of a nameless term can capture a variable, so
substitution there replaces free occurrences and does nothing else.

## Main definitions

* `Nameless` — terms whose bound occurrences are numbers
* `Term.nameless` — the nameless form of a term, in the scope of some quantifiers
* `Nameless.replace` — capture-avoiding substitution, as in a textbook
* `Nameless.freeVars` — the variables that occur free

## Main results

* `Term.nameless_eq_replace_iff` — when the same term in two scopes differs by a substitution
* `Term.mem_freeVars_nameless`, `Nameless.mem_freeVars_replace` — free variables of nameless terms
-/

namespace SignedTableaux

/-- Terms whose bound occurrences are numbers: `bound 0` belongs to the innermost quantifier. -/
inductive Nameless where
  | app (kind : SymbolKind) (symbol : String) (args : List Nameless)
  | free (name : String)
  | bound (index : Nat)
  | not (arg : Nameless)
  | binary (op : Connective) (lhs rhs : Nameless)
  | quantified (q : Quantifier) (body : Nameless)

namespace Nameless

/-- A property that passes from the parts of a nameless term to it holds of every one. -/
@[elab_as_elim, induction_eliminator]
theorem induction {P : Nameless → Prop}
    (app : ∀ kind symbol args, (∀ arg ∈ args, P arg) → P (.app kind symbol args))
    (free : ∀ name, P (.free name))
    (bound : ∀ index, P (.bound index))
    (not : ∀ arg, P arg → P (.not arg))
    (binary : ∀ op lhs rhs, P lhs → P rhs → P (.binary op lhs rhs))
    (quantified : ∀ q body, P body → P (.quantified q body)) (n : Nameless) : P n :=
  @Nameless.rec P (fun ns => ∀ n ∈ ns, P n) app free bound not binary quantified
    (fun _ h => absurd h List.not_mem_nil)
    (fun _ _ hhead htail => List.forall_mem_cons.mpr ⟨hhead, htail⟩) n

mutual

/-- Replaces the free occurrences of `x` by `r`. No number in the nameless form of a term points
outside it, so `r` is put under quantifiers as it is. -/
def replace : Nameless → (x : String) → (r : Nameless) → Nameless
  | .app k f args, x, r => .app k f (replaceList args x r)
  | .free y, x, r => if y = x then r else .free y
  | .bound i, _, _ => .bound i
  | .not n, x, r => .not (n.replace x r)
  | .binary c m n, x, r => .binary c (m.replace x r) (n.replace x r)
  | .quantified q body, x, r => .quantified q (body.replace x r)

/-- Replaces the free occurrences of `x` in every term of a list. -/
def replaceList : List Nameless → (x : String) → (r : Nameless) → List Nameless
  | [], _, _ => []
  | n :: ns, x, r => n.replace x r :: replaceList ns x r

end

mutual

/-- The variables that occur free. -/
def freeVars : Nameless → NameSet
  | .app _ _ args => freeVarsList args
  | .free x => .single x
  | .bound _ => ∅
  | .not n => n.freeVars
  | .binary _ m n => m.freeVars ∪ n.freeVars
  | .quantified _ body => body.freeVars

/-- The variables that occur free in some term of a list. -/
def freeVarsList : List Nameless → NameSet
  | [] => ∅
  | n :: ns => n.freeVars ∪ freeVarsList ns

end

theorem replaceList_eq_map (x : String) (r : Nameless) (ns : List Nameless) :
    replaceList ns x r = ns.map (·.replace x r) := by
  induction ns with
  | nil => rw [replaceList, List.map_nil]
  | cons n ns ih => rw [replaceList, ih, List.map_cons]

theorem mem_freeVarsList {y : String} {ns : List Nameless} :
    y ∈ freeVarsList ns ↔ ∃ n ∈ ns, y ∈ n.freeVars := by
  induction ns with
  | nil => simp [freeVarsList]
  | cons n ns ih => simp [freeVarsList, ih]

theorem mem_freeVars_replace {x y : String} {r n : Nameless} :
    y ∈ (n.replace x r).freeVars ↔
      (y ∈ n.freeVars ∧ y ≠ x) ∨ (x ∈ n.freeVars ∧ y ∈ r.freeVars) := by
  induction n with
  | app k f args ih =>
    simp only [replace, replaceList_eq_map, freeVars, mem_freeVarsList, List.mem_map,
      exists_exists_and_eq_and]
    constructor
    · rintro ⟨arg, harg, hy⟩
      exact ((ih arg harg).mp hy).imp (fun h => ⟨⟨arg, harg, h.1⟩, h.2⟩)
        (fun h => ⟨⟨arg, harg, h.1⟩, h.2⟩)
    · rintro (⟨⟨arg, harg, hy⟩, hne⟩ | ⟨⟨arg, harg, hx⟩, hy⟩)
      · exact ⟨arg, harg, (ih arg harg).mpr (.inl ⟨hy, hne⟩)⟩
      · exact ⟨arg, harg, (ih arg harg).mpr (.inr ⟨hx, hy⟩)⟩
  | free z =>
    rw [replace]
    by_cases h : z = x
    · subst h
      simp [freeVars]
    · rw [if_neg h]
      simp only [freeVars, NameSet.mem_single, ne_eq]
      grind
  | bound i => simp [replace, freeVars]
  | not n ih => simpa [replace, freeVars] using ih
  | binary c m n ihm ihn =>
    simp only [replace, freeVars, NameSet.mem_union, ihm, ihn]
    grind
  | quantified q body ih => simpa [replace, freeVars] using ih

end Nameless

/-- The occurrence of a name in the scope of some quantifiers, of which the innermost comes
first. -/
def resolve (scope : List String) (x : String) : Nameless :=
  match scope.idxOf? x with
  | some i => .bound i
  | none => .free x

section Resolve

variable {scope : List String} {x z : String}

theorem resolve_of_idxOf?_eq_some {i : Nat} (h : scope.idxOf? x = some i) :
    resolve scope x = .bound i := by
  rw [resolve, h]

theorem resolve_of_idxOf?_eq_none (h : scope.idxOf? x = none) : resolve scope x = .free x := by
  rw [resolve, h]

theorem resolve_of_not_mem (h : x ∉ scope) : resolve scope x = .free x :=
  resolve_of_idxOf?_eq_none (List.idxOf?_eq_none_iff.mpr h)

theorem idxOf?_cons_of_ne (h : x ≠ z) :
    (z :: scope).idxOf? x = (scope.idxOf? x).map (· + 1) := by
  simp [List.idxOf?_cons, h.symm]

/-- One more quantifier around both sides, which binds another name, changes nothing. -/
theorem resolve_cons_eq_replace_iff {Γ Δ : List String} {v : String} {r : Nameless}
    (hr : ∀ i, r ≠ .bound i) (hv : v ≠ z) :
    resolve (z :: Δ) v = (resolve (z :: Γ) v).replace x r ↔
      resolve Δ v = (resolve Γ v).replace x r := by
  simp only [resolve, idxOf?_cons_of_ne hv]
  cases Γ.idxOf? v with
  | some j => cases Δ.idxOf? v <;> simp [Nameless.replace]
  | none =>
    by_cases hvx : v = x
    · cases Δ.idxOf? v <;> simp [Nameless.replace, hvx, (hr _).symm]
    · cases Δ.idxOf? v <;> simp [Nameless.replace, hvx]

end Resolve

namespace Term

mutual

/-- The nameless form of a term in the scope of quantifiers that bind the given names. -/
def nameless (scope : List String) : Term → Nameless
  | .app k f args => .app k f (namelessList scope args)
  | .var x => resolve scope x
  | .not t => .not (t.nameless scope)
  | .binary c l r => .binary c (l.nameless scope) (r.nameless scope)
  | .quantified q x body => .quantified q (body.nameless (x :: scope))

/-- The nameless forms of the terms of a list. -/
def namelessList (scope : List String) : List Term → List Nameless
  | [] => []
  | t :: ts => t.nameless scope :: namelessList scope ts

end

theorem namelessList_eq_map (scope : List String) (ts : List Term) :
    namelessList scope ts = ts.map (nameless scope) := by
  induction ts with
  | nil => rw [namelessList, List.map_nil]
  | cons t ts ih => rw [namelessList, ih, List.map_cons]

theorem nameless_nil_ne_bound (t : Term) (i : Nat) : t.nameless [] ≠ .bound i := by
  cases t <;> simp [nameless, resolve]

theorem eq_var_of_nameless_nil {t : Term} {x : String} (h : t.nameless [] = .free x) :
    t = .var x := by
  cases t <;> simp_all [nameless, resolve]

/-- The nameless form depends on where the scope binds the free variables, and on nothing else. -/
theorem nameless_congr {t : Term} {Γ Δ : List String}
    (h : ∀ v ∈ t.freeVars, Γ.idxOf? v = Δ.idxOf? v) : t.nameless Γ = t.nameless Δ := by
  induction t generalizing Γ Δ with
  | app k f args ih =>
    simp only [nameless, namelessList_eq_map]
    congr 1
    refine List.map_congr_left fun arg harg => ih arg harg fun v hv => ?_
    exact h v ((mem_freeVars_app k f args).mpr ⟨arg, harg, hv⟩)
  | var x => simp only [nameless, resolve, h x (mem_freeVars_var.mpr rfl)]
  | not t ih => simp only [nameless, ih fun v hv => h v (mem_freeVars_not.mpr hv)]
  | binary c l r ihl ihr =>
    simp only [nameless, ihl fun v hv => h v ((mem_freeVars_binary c l r).mpr (.inl hv)),
      ihr fun v hv => h v ((mem_freeVars_binary c l r).mpr (.inr hv))]
  | quantified q z body ih =>
    simp only [nameless]
    congr 1
    refine ih fun v hv => ?_
    by_cases hvz : v = z
    · simp [List.idxOf?_cons, hvz]
    · rw [idxOf?_cons_of_ne hvz, idxOf?_cons_of_ne hvz,
        h v ((mem_freeVars_quantified q body).mpr ⟨hv, hvz⟩)]

/-- A term read in two scopes differs by a replacement exactly if each of its free variables
does. -/
theorem nameless_eq_replace_iff {t : Term} {x : String} {r : Nameless} {Γ Δ : List String}
    (hr : ∀ i, r ≠ .bound i) :
    t.nameless Δ = (t.nameless Γ).replace x r ↔
      ∀ v ∈ t.freeVars, resolve Δ v = (resolve Γ v).replace x r := by
  induction t generalizing Γ Δ with
  | app k f args ih =>
    simp only [nameless, namelessList_eq_map, Nameless.replace, Nameless.replaceList_eq_map,
      List.map_map, Nameless.app.injEq, true_and, List.map_inj_left, Function.comp_apply,
      mem_freeVars_app]
    constructor
    · rintro h v ⟨arg, harg, hv⟩
      exact (ih arg harg).mp (h arg harg) v hv
    · intro h arg harg
      exact (ih arg harg).mpr fun v hv => h v ⟨arg, harg, hv⟩
  | var y => simp [nameless]
  | not t ih => simpa [nameless, Nameless.replace] using ih
  | binary c l r ihl ihr =>
    simp only [nameless, Nameless.replace, Nameless.binary.injEq, true_and, ihl, ihr,
      mem_freeVars_binary, or_imp, forall_and]
  | quantified q z body ih =>
    simp only [nameless, Nameless.replace, Nameless.quantified.injEq, true_and, ih,
      mem_freeVars_quantified]
    constructor
    · rintro h v ⟨hv, hvz⟩
      exact (resolve_cons_eq_replace_iff hr hvz).mp (h v hv)
    · intro h v hv
      by_cases hvz : v = z
      · simp [resolve, List.idxOf?_cons, hvz, Nameless.replace]
      · exact (resolve_cons_eq_replace_iff hr hvz).mpr (h v ⟨hv, hvz⟩)

theorem mem_freeVars_nameless {t : Term} {y : String} {Γ : List String} :
    y ∈ (t.nameless Γ).freeVars ↔ y ∈ t.freeVars ∧ y ∉ Γ := by
  induction t generalizing Γ with
  | app k f args ih =>
    simp only [nameless, namelessList_eq_map, Nameless.freeVars, Nameless.mem_freeVarsList,
      List.mem_map, exists_exists_and_eq_and, mem_freeVars_app]
    constructor
    · rintro ⟨arg, harg, hy⟩
      exact ⟨⟨arg, harg, ((ih arg harg).mp hy).1⟩, ((ih arg harg).mp hy).2⟩
    · rintro ⟨⟨arg, harg, hy⟩, hscope⟩
      exact ⟨arg, harg, (ih arg harg).mpr ⟨hy, hscope⟩⟩
  | var x =>
    by_cases hx : x ∈ Γ
    · obtain ⟨i, hi⟩ := Option.ne_none_iff_exists'.mp (List.idxOf?_eq_none_iff.not_left.mpr hx)
      simp only [nameless, resolve_of_idxOf?_eq_some hi, Nameless.freeVars, mem_freeVars_var]
      grind [NameSet.not_mem_empty]
    · simp only [nameless, resolve_of_not_mem hx, Nameless.freeVars, NameSet.mem_single,
        mem_freeVars_var]
      grind
  | not t ih => simpa [nameless, Nameless.freeVars] using ih
  | binary c l r ihl ihr =>
    simp only [nameless, Nameless.freeVars, NameSet.mem_union, ihl, ihr, mem_freeVars_binary]
    exact or_and_right.symm
  | quantified q z body ih =>
    simp only [nameless, Nameless.freeVars, ih, mem_freeVars_quantified, List.mem_cons]
    grind

end Term

end SignedTableaux
