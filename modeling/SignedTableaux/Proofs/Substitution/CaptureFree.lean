import SignedTableaux.Proofs.Substitution.Lookup

/-!
# Substitution without capture

A substitution whose images have no variable that is bound in a term renames no binder there. What
it does to the names in the term is then easy to say.

## Main definitions

* `Substitution.Passes` — going under a quantifier whose name does not have to change
* `Substitution.CaptureFree` — no image has a variable that is bound in a term

## Main results

* `Substitution.Passes.apply_quantified`, `Substitution.CaptureFree.apply_quantified` — no binder is
  renamed
* `Term.substitute_induction` — induction on a term and what becomes of it
* `Term.mem_freeVars_substitute`, `Term.mem_symbolsOf_substitute`, `Term.mem_boundNames_substitute`
  — the names after replacing one variable
-/

namespace SignedTableaux

namespace Substitution

/-- Whether `σ` goes under a quantifier that binds `z` and leaves its name. -/
structure Passes (σ : Substitution) (z : String) : Prop where
  not_mem_domain : z ∉ σ.domain
  not_mem_image : ∀ x image, σ.get? x = some image → z ∉ image.freeVars

/-- Whether no image has a variable that is bound in `t`. -/
def CaptureFree (σ : Substitution) (t : Term) : Prop :=
  ∀ z ∈ t.boundNames, ∀ x image, σ.get? x = some image → z ∉ image.freeVars

variable {σ : Substitution} {t : Term}

theorem Passes.apply_quantified {q : Quantifier} {z : String} (h : σ.Passes z) :
    σ.apply (.quantified q z t) = .quantified q z (σ.apply t) := by
  refine apply_quantified_of_not_captures h.not_mem_domain fun hcaptures => ?_
  obtain ⟨x, image, himage, -, hmem⟩ := captures_iff.mp hcaptures
  exact h.not_mem_image x image himage hmem

theorem passes_single {x z : String} {r : Term} (hx : z ≠ x) (hr : z ∉ r.freeVars) :
    (single x r).Passes z where
  not_mem_domain := by simpa using hx
  not_mem_image v image himage := by
    obtain ⟨-, rfl⟩ : v = x ∧ r = image := by simpa [get?_single] using himage
    exact hr

namespace CaptureFree

theorem mono {t' : Term} (h : σ.CaptureFree t) (hsub : ∀ z ∈ t'.boundNames, z ∈ t.boundNames) :
    σ.CaptureFree t' :=
  fun z hz => h z (hsub z hz)

theorem arg {k : SymbolKind} {f : String} {args : List Term} {arg : Term}
    (h : σ.CaptureFree (.app k f args)) (harg : arg ∈ args) : σ.CaptureFree arg :=
  h.mono fun _ hz => (Term.mem_boundNames_app ..).mpr ⟨arg, harg, hz⟩

theorem negated (h : σ.CaptureFree (.not t)) : σ.CaptureFree t :=
  h.mono fun _ hz => Term.mem_boundNames_not.mpr hz

theorem left {c : Connective} {l r : Term} (h : σ.CaptureFree (.binary c l r)) :
    σ.CaptureFree l :=
  h.mono fun _ hz => (Term.mem_boundNames_binary ..).mpr (.inl hz)

theorem right {c : Connective} {l r : Term} (h : σ.CaptureFree (.binary c l r)) :
    σ.CaptureFree r :=
  h.mono fun _ hz => (Term.mem_boundNames_binary ..).mpr (.inr hz)

variable {q : Quantifier} {z : String}

theorem body (h : σ.CaptureFree (.quantified q z t)) : σ.CaptureFree t :=
  h.mono fun _ hz => (Term.mem_boundNames_quantified ..).mpr (.inr hz)

theorem not_mem (h : σ.CaptureFree (.quantified q z t)) {x : String} {image : Term}
    (himage : σ.get? x = some image) : z ∉ image.freeVars :=
  h z ((Term.mem_boundNames_quantified ..).mpr (.inl rfl)) x image himage

/-- No binder is renamed. -/
theorem apply_quantified (h : σ.CaptureFree (.quantified q z t)) (hz : z ∉ σ.domain) :
    σ.apply (.quantified q z t) = .quantified q z (σ.apply t) :=
  Passes.apply_quantified ⟨hz, fun _ _ himage => h.not_mem himage⟩

end CaptureFree

theorem captureFree_single {x : String} {r : Term} (h : ∀ z ∈ t.boundNames, z ∉ r.freeVars) :
    (single x r).CaptureFree t := by
  intro z hz y image himage
  obtain ⟨-, rfl⟩ : y = x ∧ r = image := by simpa [get?_single] using himage
  exact h z hz

end Substitution

/-! ### Names after replacing one variable -/

namespace Term

variable {t r : Term} {x y : String}

theorem substitute_quantified {q : Quantifier} {z : String} {body : Term}
    (h : (Substitution.single x r).CaptureFree (.quantified q z body)) :
    (quantified q z body).substitute x r =
      if z = x then quantified q z body else quantified q z (body.substitute x r) := by
  unfold substitute
  split
  · next hzx => exact Substitution.apply_quantified_of_mem (by simpa using hzx)
  · next hzx => exact h.apply_quantified (by simpa using hzx)

/-- A relation between terms and their instances that passes from the parts to the whole holds of
every term where no variable is captured. -/
theorem substitute_induction {P : Term → Term → Prop}
    (app : ∀ k f args, (∀ arg ∈ args, P arg (arg.substitute x r)) →
      P (.app k f args) (.app k f (args.map fun arg => arg.substitute x r)))
    (replaced : P (.var x) r) (kept : ∀ z, z ≠ x → P (.var z) (.var z))
    (not : ∀ t, P t (t.substitute x r) → P (.not t) (.not (t.substitute x r)))
    (binary : ∀ c l s, P l (l.substitute x r) → P s (s.substitute x r) →
      P (.binary c l s) (.binary c (l.substitute x r) (s.substitute x r)))
    (skipped : ∀ q body, P (.quantified q x body) (.quantified q x body))
    (quantified : ∀ q z body, z ≠ x → z ∉ r.freeVars → P body (body.substitute x r) →
      P (.quantified q z body) (.quantified q z (body.substitute x r)))
    (h : (Substitution.single x r).CaptureFree t) : P t (t.substitute x r) := by
  induction t with
  | app k f args ih =>
    rw [substitute, Substitution.apply_app]
    exact app k f args fun arg harg => ih arg harg (h.arg harg)
  | var z =>
    rw [substitute, Substitution.apply_var, Substitution.get?_single]
    by_cases hz : z = x
    · rw [if_pos hz, hz]
      exact replaced
    · rw [if_neg hz]
      exact kept z hz
  | not t ih =>
    rw [substitute, Substitution.apply_not]
    exact not t (ih h.negated)
  | binary c l s ihl ihs =>
    rw [substitute, Substitution.apply_binary]
    exact binary c l s (ihl h.left) (ihs h.right)
  | quantified q z body ih =>
    rw [substitute_quantified h]
    by_cases hz : z = x
    · rw [if_pos hz, hz]
      exact skipped q body
    · rw [if_neg hz]
      exact quantified q z body hz (h.not_mem (x := x) (by simp [Substitution.get?_single]))
        (ih h.body)

theorem mem_freeVars_substitute (h : (Substitution.single x r).CaptureFree t) :
    y ∈ (t.substitute x r).freeVars → y ∈ t.freeVars ∧ y ≠ x ∨ y ∈ r.freeVars := by
  refine substitute_induction
    (P := fun t u => y ∈ u.freeVars → y ∈ t.freeVars ∧ y ≠ x ∨ y ∈ r.freeVars)
    ?app .inr ?kept ?not ?binary ?skipped ?quantified h
  case app =>
    intro k f args ih hy
    obtain ⟨arg, harg, hy⟩ : ∃ arg ∈ args, y ∈ (arg.substitute x r).freeVars := by simpa using hy
    refine (ih arg harg hy).imp_left fun hmem => ⟨?_, hmem.2⟩
    exact (mem_freeVars_app ..).mpr ⟨arg, harg, hmem.1⟩
  case kept =>
    intro z hz hy
    exact .inl ⟨hy, mem_freeVars_var.mp hy ▸ hz⟩
  case not =>
    intro t ih hy
    simpa using ih (by simpa using hy)
  case binary =>
    intro c l s ihl ihs hy
    rcases (mem_freeVars_binary ..).mp hy with hy | hy
    · exact (ihl hy).imp_left fun hmem => ⟨by simp [hmem.1], hmem.2⟩
    · exact (ihs hy).imp_left fun hmem => ⟨by simp [hmem.1], hmem.2⟩
  case skipped =>
    intro q body hy
    exact .inl ⟨hy, ((mem_freeVars_quantified ..).mp hy).2⟩
  case quantified =>
    intro q z body _ _ ih hy
    obtain ⟨hy, hyz⟩ := (mem_freeVars_quantified ..).mp hy
    exact (ih hy).imp_left fun hmem => ⟨by simp [hmem.1, hyz], hmem.2⟩

theorem mem_boundNames_substitute (h : (Substitution.single x r).CaptureFree t) :
    y ∈ (t.substitute x r).boundNames → y ∈ t.boundNames ∨ y ∈ r.boundNames := by
  refine substitute_induction
    (P := fun t u => y ∈ u.boundNames → y ∈ t.boundNames ∨ y ∈ r.boundNames)
    ?app .inr (fun _ _ => .inl) ?not ?binary (fun _ _ => .inl) ?quantified h
  case app =>
    intro k f args ih hy
    obtain ⟨arg, harg, hy⟩ : ∃ arg ∈ args, y ∈ (arg.substitute x r).boundNames := by simpa using hy
    exact (ih arg harg hy).imp_left fun hmem => (mem_boundNames_app ..).mpr ⟨arg, harg, hmem⟩
  case not =>
    intro t ih hy
    simpa using ih (by simpa using hy)
  case binary =>
    intro c l s ihl ihs hy
    rcases (mem_boundNames_binary ..).mp hy with hy | hy
    · exact (ihl hy).imp_left fun hmem => by simp [hmem]
    · exact (ihs hy).imp_left fun hmem => by simp [hmem]
  case quantified =>
    intro q z body _ _ ih hy
    rcases (mem_boundNames_quantified ..).mp hy with rfl | hy
    · exact .inl (by simp)
    · exact (ih hy).imp_left fun hmem => by simp [hmem]

theorem mem_symbolsOf_substitute {kind : SymbolKind}
    (h : (Substitution.single x r).CaptureFree t) :
    y ∈ (t.substitute x r).symbolsOf kind → y ∈ t.symbolsOf kind ∨ y ∈ r.symbolsOf kind := by
  refine substitute_induction
    (P := fun t u => y ∈ u.symbolsOf kind → y ∈ t.symbolsOf kind ∨ y ∈ r.symbolsOf kind)
    ?app .inr (fun _ _ => .inl) ?not ?binary (fun _ _ => .inl) ?quantified h
  case app =>
    intro k f args ih hy
    have hy : k = kind ∧ y = f ∨ ∃ arg ∈ args, y ∈ (arg.substitute x r).symbolsOf kind := by
      simpa using hy
    rcases hy with hf | ⟨arg, harg, hy⟩
    · exact .inl ((mem_symbolsOf_app ..).mpr (.inl hf))
    · exact (ih arg harg hy).imp_left fun hmem =>
        (mem_symbolsOf_app ..).mpr (.inr ⟨arg, harg, hmem⟩)
  case not =>
    intro t ih hy
    simpa using ih (by simpa using hy)
  case binary =>
    intro c l s ihl ihs hy
    rcases (mem_symbolsOf_binary ..).mp hy with hy | hy
    · exact (ihl hy).imp_left fun hmem => by simp [hmem]
    · exact (ihs hy).imp_left fun hmem => by simp [hmem]
  case quantified =>
    intro q z body _ _ ih hy
    simpa using ih (by simpa using hy)

end Term

end SignedTableaux
