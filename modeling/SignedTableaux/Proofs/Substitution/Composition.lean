import SignedTableaux.Proofs.Substitution.CaptureFree
import SignedTableaux.Proofs.Substitution.FreeVariables
import SignedTableaux.Proofs.Term.Disagreement

/-!
# One substitution after another

Two substitutions, one after the other, do to a term what a third one does, if they do so at its
variables and at the quantifiers that the first one leaves alone, and if all three go under every
other quantifier. The quantifiers need care because one that binds a name of the domain is left
alone as a whole: variables of the domain survive below it, and the second substitution meets them
there.

A substitution whose images have none of its own names is its own second step, so an instance is its
own instance. A variable can be given a new name first and its image later, which comes to the same
as giving it its image at once.

## Main definitions

* `Substitution.Composes` — where two substitutions do what a third one does

## Main results

* `Substitution.Composes.apply_apply` — two substitutions one after the other
* `Substitution.unify_apply` — a term and its instance have the instance in common
* `Term.substitute_rename` — a new name first and its image later
-/

namespace SignedTableaux

namespace Substitution

variable {σ τ ρ : Substitution} {x y z : String} {r s t : Term}

/-- Whether `σ` and then `τ` do what `ρ` does at the variables of `t` and at the quantifiers that
`σ` leaves alone, and all three go under the other quantifiers. -/
structure Composes (σ τ ρ : Substitution) (t : Term) : Prop where
  var_eq : ∀ v ∈ t.symbols, τ.apply (σ.apply (.var v)) = ρ.apply (.var v)
  skipped_eq : ∀ q z body, z ∈ σ.domain →
    (∀ v ∈ (Term.quantified q z body).symbols, v ∈ t.symbols) →
      τ.apply (.quantified q z body) = ρ.apply (.quantified q z body)
  passes : ∀ z ∈ t.boundNames, z ∉ σ.domain → σ.Passes z ∧ τ.Passes z ∧ ρ.Passes z

namespace Composes

theorem mono (h : Composes σ τ ρ t) (hsymbols : ∀ v ∈ s.symbols, v ∈ t.symbols)
    (hbound : ∀ z ∈ s.boundNames, z ∈ t.boundNames) : Composes σ τ ρ s where
  var_eq v hv := h.var_eq v (hsymbols v hv)
  skipped_eq q z body hz hbody := h.skipped_eq q z body hz fun v hv => hsymbols v (hbody v hv)
  passes z hz := h.passes z (hbound z hz)

/-- Two substitutions one after the other. -/
theorem apply_apply (h : Composes σ τ ρ t) : τ.apply (σ.apply t) = ρ.apply t := by
  induction t with
  | app k f args ih =>
    rw [apply_app, apply_app, apply_app, List.map_map]
    refine congrArg (Term.app k f) (List.map_congr_left fun arg harg => ?_)
    refine ih arg harg (h.mono (fun v hv => ?_) fun z hz => ?_)
    · exact (Term.mem_symbols_app ..).mpr (.inr ⟨arg, harg, hv⟩)
    · exact (Term.mem_boundNames_app ..).mpr ⟨arg, harg, hz⟩
  | var v => exact h.var_eq v (Term.mem_symbols_var.mpr rfl)
  | not t ih => exact congrArg Term.not (ih (h.mono (fun v hv => hv) fun z hz => hz))
  | binary c l r ihl ihr =>
    refine congrArg₂ (Term.binary c) (ihl ?_) (ihr ?_)
    · exact h.mono (by simp +contextual) (by simp +contextual)
    · exact h.mono (by simp +contextual) (by simp +contextual)
  | quantified q z body ih =>
    by_cases hz : z ∈ σ.domain
    · rw [apply_quantified_of_mem hz]
      exact h.skipped_eq q z body hz fun v hv => hv
    · obtain ⟨hσ, hτ, hρ⟩ := h.passes z (by simp) hz
      have hbody := ih (h.mono (by simp +contextual) (by simp +contextual))
      rw [hσ.apply_quantified, hτ.apply_quantified, hρ.apply_quantified, hbody]

end Composes

/-! ### The same substitution twice -/

/-- A substitution composes with itself where its images have neither names of its domain nor names
that are bound in the term. -/
theorem composes_self (h : ∀ x image, σ.get? x = some image →
    ∀ y ∈ image.freeVars, y ∉ σ.domain ∧ y ∉ t.boundNames) : Composes σ σ σ t where
  var_eq v _ := by
    by_cases hv : v ∈ σ.domain
    · obtain ⟨image, himage⟩ := mem_domain_iff.mp hv
      rw [apply_var, himage, Option.getD_some]
      exact apply_eq_self fun y hy => (h v image himage y hy).1
    · rw [apply_var, get?_eq_none hv, Option.getD_none, apply_var, get?_eq_none hv,
        Option.getD_none]
  skipped_eq _ _ _ _ _ := rfl
  passes z hz hdomain := by
    have hpasses : σ.Passes z :=
      ⟨hdomain, fun x image himage hmem => (h x image himage z hmem).2 hz⟩
    exact ⟨hpasses, hpasses, hpasses⟩

/-- An instance is its own instance, and it is what a term and its instance have in common, where no
image has a variable that is replaced or that is bound in the term. -/
theorem unify_apply (σ : Substitution) (t : Term) (h : ∀ x image, σ.get? x = some image →
    ∀ y ∈ image.freeVars, y ∉ σ.domain ∧ y ∉ t.boundNames) :
    σ.apply (σ.apply t) = σ.apply t ∧ σ.unify t (σ.apply t) = .ok (σ.apply t) := by
  have htwice := (composes_self h).apply_apply
  exact ⟨htwice, unify_eq_ok_iff.mpr ⟨rfl, htwice.symm⟩⟩

/-- The formula `P(x) & (forall x. Q(x, y)) & (exists z. R(y, z))`. -/
def reboundBeside : Term :=
  .binary .and (.binary .and (.pred "P" [.var "x"])
    (.quantified .universal "x" (.pred "Q" [.var "x", .var "y"])))
    (.quantified .existential "z" (.pred "R" [.var "y", .var "z"]))

/-- With `f(w)` for `x` and a quantified formula for `y`, the `y` below `forall x` is still free in
the instance, and stays so in the instance of the instance. -/
theorem unify_apply_reboundBeside :
    let σ := ofList [("x", .fn "f" [.var "w"]),
      ("y", .quantified .universal "x" (.pred "S" [.var "x", .var "w"]))]
    "y" ∈ (σ.apply reboundBeside).freeVars ∧
      σ.apply (σ.apply reboundBeside) = σ.apply reboundBeside ∧
      σ.unify reboundBeside (σ.apply reboundBeside) = .ok (σ.apply reboundBeside) := by
  intro σ
  have himages : ∀ b ∈ σ.bindings, ∀ y ∈ b.2.freeVars.toList,
      y ∉ σ.domain ∧ y ∉ reboundBeside.boundNames := by
    decide
  refine ⟨by decide, unify_apply σ reboundBeside fun x image himage y hy => ?_⟩
  exact himages (x, image) (mem_bindings_iff.mpr himage) y hy

end Substitution

/-! ### A new name first -/

namespace Term

variable {r t : Term} {x y : String}

/-- Giving a variable a new name and then an image composes to giving it the image, unless a
quantifier over another variable would capture. -/
theorem composes_rename (hy : y ∉ t.symbols) (hr : ∀ z ∈ t.boundNames, z ∈ r.freeVars → z = x) :
    Substitution.Composes (.single x (.var y)) (.single y r) (.single x r) t where
  var_eq v hv := by
    have hvy : v ≠ y := fun heq => hy (heq ▸ hv)
    by_cases hvx : v = x <;> simp [Substitution.get?_single, hvx, hvy]
  skipped_eq q z body hz hsymbols := by
    obtain rfl : z = x := by simpa using hz
    have hold : z ∈ (Substitution.single z r).domain := Substitution.mem_domain_single.mpr rfl
    rw [Substitution.apply_quantified_of_mem hold]
    refine Substitution.apply_eq_self fun v hv hdomain => hy ?_
    rw [← Substitution.mem_domain_single.mp hdomain]
    exact hsymbols v (freeVars_subset_symbols hv)
  passes z hz hdomain := by
    have hzx : z ≠ x := by simpa using hdomain
    have hzy : z ≠ y := fun heq => hy (heq ▸ boundNames_subset_symbols hz)
    have hzr : z ∉ r.freeVars := fun hmem => hzx (hr z hz hmem)
    exact ⟨Substitution.passes_single hzx (by simpa using hzy), Substitution.passes_single hzy hzr,
      Substitution.passes_single hzx hzr⟩

/-- A variable can be given a new name first and its image later, and a new name can be taken
back. -/
theorem substitute_rename (t : Term) (x y : String) (hy : y ∉ t.symbols) :
    (∀ r : Term, (∀ z ∈ r.freeVars, z ∉ t.boundNames) →
      (t.rename x y).substitute y r = t.substitute x r) ∧
      (t.rename x y).rename y x = t := by
  constructor
  · intro r hr
    exact (composes_rename hy fun z hz hmem => absurd hz (hr z hmem)).apply_apply
  · -- taking the name back may capture at a quantifier over `x`, which the new name does not reach
    have hback : (t.rename x y).rename y x = t.substitute x (.var x) :=
      (composes_rename hy fun z _ hmem => mem_freeVars_var.mp hmem).apply_apply
    rw [hback]
    refine Substitution.apply_eq_self_of_fixes fun v _ image himage => ?_
    obtain ⟨rfl, rfl⟩ : v = x ∧ var x = image := by simpa [Substitution.get?_single] using himage
    rfl

/-- The free `x` is renamed, replaced by `f(w)` later or renamed back, and the bound `x` stays. -/
theorem substitute_rename_reboundBeside :
    let t := Substitution.reboundBeside
    t.rename "x" "X_1" ≠ t ∧
      (t.rename "x" "X_1").substitute "X_1" (.fn "f" [.var "w"]) =
        t.substitute "x" (.fn "f" [.var "w"]) ∧
      (t.rename "x" "X_1").rename "X_1" "x" = t := by
  intro t
  have hlaws := substitute_rename t "x" "X_1" (by decide)
  have himage : ∀ z ∈ (Term.fn "f" [.var "w"]).freeVars.toList, z ∉ t.boundNames := by decide
  exact ⟨by decide, hlaws.1 _ himage, hlaws.2⟩

end Term

end SignedTableaux
