import SignedTableaux.Proofs.Substitution.Lookup

/-!
# Free variables of an instance

Where a quantifier would capture, it is renamed, and the substitution that goes on below it has one
more binding. So what is said about a substitution is proved about all substitutions at once. A
variable that is not replaced stays free, a variable that is free afterwards was free before or
comes with an image that was put in, and a term without variables to replace stays as it is, with
all its binders. The second bound covers a variable that slips out of its quantifier, because an
inner quantifier hides it from the renaming: the quantifier was renamed for an image with that very
variable.

## Main results

* `Substitution.apply_induction` — induction on a term along what a substitution makes of it
* `Substitution.mem_freeVars_apply_of_not_mem_domain` — what is not replaced stays free
* `Substitution.mem_freeVars_of_mem_apply` — what is free afterwards was free before, or is brought
  in
* `Substitution.apply_eq_self_of_fixes`, `Substitution.apply_eq_self` — a term without variables to
  replace, other than by themselves, stays as it is
-/

namespace SignedTableaux.Substitution

/-- A relation between a substitution, a term and its instance that passes from the parts to the
whole holds of every substitution and every term. -/
theorem apply_induction {P : Substitution → Term → Term → Prop}
    (app : ∀ σ k f args, (∀ arg ∈ args, P σ arg (σ.apply arg)) →
      P σ (.app k f args) (.app k f (args.map σ.apply)))
    (replaced : ∀ σ x image, σ.get? x = some image → P σ (.var x) image)
    (kept : ∀ σ x, x ∉ σ.domain → P σ (.var x) (.var x))
    (not : ∀ σ t, P σ t (σ.apply t) → P σ (.not t) (.not (σ.apply t)))
    (binary : ∀ σ c l r, P σ l (σ.apply l) → P σ r (σ.apply r) →
      P σ (.binary c l r) (.binary c (σ.apply l) (σ.apply r)))
    (skipped : ∀ σ q x body, x ∈ σ.domain → P σ (.quantified q x body) (.quantified q x body))
    (renamed : ∀ σ q x body, x ∉ σ.domain → σ.captures x body →
      P (σ.insert x (.var (σ.freshBinder x body))) body
        ((σ.insert x (.var (σ.freshBinder x body))).apply body) →
      P σ (.quantified q x body) (.quantified q (σ.freshBinder x body)
        ((σ.insert x (.var (σ.freshBinder x body))).apply body)))
    (passed : ∀ σ q x body, x ∉ σ.domain → ¬ σ.captures x body → P σ body (σ.apply body) →
      P σ (.quantified q x body) (.quantified q x (σ.apply body)))
    (σ : Substitution) (t : Term) : P σ t (σ.apply t) := by
  induction t generalizing σ with
  | app k f args ih =>
    rw [apply_app]
    exact app σ k f args fun arg harg => ih arg harg σ
  | var x =>
    rw [apply_var]
    by_cases hx : x ∈ σ.domain
    · obtain ⟨image, himage⟩ := mem_domain_iff.mp hx
      rw [himage]
      exact replaced σ x image himage
    · rw [get?_eq_none hx]
      exact kept σ x hx
  | not t ih => exact not σ t (ih σ)
  | binary c l r ihl ihr => exact binary σ c l r (ihl σ) (ihr σ)
  | quantified q x body ih =>
    by_cases hx : x ∈ σ.domain
    · rw [apply_quantified_of_mem hx]
      exact skipped σ q x body hx
    by_cases hcaptures : σ.captures x body
    · rw [apply_quantified_of_captures hx hcaptures]
      exact renamed σ q x body hx hcaptures (ih _)
    · rw [apply_quantified_of_not_captures hx hcaptures]
      exact passed σ q x body hx hcaptures (ih σ)

variable {σ : Substitution} {x y : String} {s t body : Term}

/-! ### What stays free -/

/-- A free variable that is not replaced stays free. -/
theorem mem_freeVars_apply_of_not_mem_domain (hy : y ∈ t.freeVars) (hdomain : y ∉ σ.domain) :
    y ∈ (σ.apply t).freeVars := by
  refine apply_induction (P := fun σ t u => y ∈ t.freeVars → y ∉ σ.domain → y ∈ u.freeVars)
    ?app ?replaced ?kept ?not ?binary ?skipped ?renamed ?passed σ t hy hdomain
  case app =>
    intro σ k f args ih hy hdomain
    obtain ⟨arg, harg, hy⟩ := (Term.mem_freeVars_app ..).mp hy
    exact (Term.mem_freeVars_app ..).mpr
      ⟨_, List.mem_map_of_mem harg, ih arg harg hy hdomain⟩
  case replaced =>
    intro σ x image himage hy hdomain
    rw [Term.mem_freeVars_var.mp hy] at hdomain
    exact absurd (mem_domain_iff.mpr ⟨image, himage⟩) hdomain
  case kept => exact fun σ x _ hy _ => hy
  case not => exact fun σ t ih hy hdomain => ih hy hdomain
  case binary =>
    intro σ c l r ihl ihr hy hdomain
    rw [Term.mem_freeVars_binary] at hy ⊢
    exact hy.imp (ihl · hdomain) (ihr · hdomain)
  case skipped => exact fun σ q x body _ hy _ => hy
  case renamed =>
    intro σ q x body _ _ ih hy hdomain
    obtain ⟨hy, hyx⟩ := (Term.mem_freeVars_quantified ..).mp hy
    have hfresh : y ≠ σ.freshBinder x body := fun heq =>
      freshBinder_not_mem.1 (heq ▸ Term.freeVars_subset_symbols hy)
    exact (Term.mem_freeVars_quantified ..).mpr ⟨ih hy (by simp [hyx, hdomain]), hfresh⟩
  case passed =>
    intro σ q x body _ _ ih hy hdomain
    obtain ⟨hy, hyx⟩ := (Term.mem_freeVars_quantified ..).mp hy
    exact (Term.mem_freeVars_quantified ..).mpr ⟨ih hy hdomain, hyx⟩

/-! ### What can be free -/

/-- Images that reach a part of a term reach the term, if no quantifier between binds what they
replace. -/
theorem captures_mono (h : σ.captures y s)
    (hsub : ∀ x ∈ σ.domain, x ∈ s.freeVars → x ∈ t.freeVars) : σ.captures y t := by
  obtain ⟨x, image, himage, hx, hy⟩ := captures_iff.mp h
  exact captures_iff.mpr ⟨x, image, himage, hsub x (mem_domain_iff.mpr ⟨image, himage⟩) hx, hy⟩

/-- Below a quantifier that binds no name of the domain, the same variables are replaced. -/
theorem mem_freeVars_quantified_of_mem_domain {q : Quantifier} (hx : x ∉ σ.domain)
    (hy : y ∈ σ.domain) (hbody : y ∈ body.freeVars) : y ∈ (Term.quantified q x body).freeVars :=
  (Term.mem_freeVars_quantified ..).mpr ⟨hbody, fun heq => hx (heq ▸ hy)⟩

theorem captures_quantified {q : Quantifier} (hx : x ∉ σ.domain) (h : σ.captures y body) :
    σ.captures y (.quantified q x body) :=
  captures_mono h fun _ hdomain => mem_freeVars_quantified_of_mem_domain hx hdomain

/-- A variable that is free in an instance is free in the term, or in the image of a variable that
is free in the term. -/
theorem mem_freeVars_of_mem_apply (h : y ∈ (σ.apply t).freeVars) :
    y ∈ t.freeVars ∨ σ.captures y t := by
  refine apply_induction (P := fun σ t u => y ∈ u.freeVars → y ∈ t.freeVars ∨ σ.captures y t)
    ?app ?replaced ?kept ?not ?binary ?skipped ?renamed ?passed σ t h
  case app =>
    intro σ k f args ih hy
    obtain ⟨arg, harg, hy⟩ : ∃ arg ∈ args, y ∈ (σ.apply arg).freeVars := by simpa using hy
    have hsub : ∀ x, x ∈ arg.freeVars → x ∈ (Term.app k f args).freeVars := fun x hx =>
      (Term.mem_freeVars_app ..).mpr ⟨arg, harg, hx⟩
    exact (ih arg harg hy).imp (hsub y) fun hc => captures_mono hc fun x _ => hsub x
  case replaced =>
    intro σ x image himage hy
    exact .inr (captures_iff.mpr ⟨x, image, himage, Term.mem_freeVars_var.mpr rfl, hy⟩)
  case kept => exact fun σ x _ hy => .inl hy
  case not => exact fun σ t ih hy => (ih hy).imp_right fun hc => captures_mono hc fun x _ hx => hx
  case binary =>
    intro σ c l r ihl ihr hy
    rcases (Term.mem_freeVars_binary ..).mp hy with hy | hy
    · exact (ihl hy).imp (by simp +contextual) fun hc => captures_mono hc (by simp +contextual)
    · exact (ihr hy).imp (by simp +contextual) fun hc => captures_mono hc (by simp +contextual)
  case skipped => exact fun σ q x body _ hy => .inl hy
  case renamed =>
    intro σ q x body hx hcaptures ih hy
    obtain ⟨hy, hfresh⟩ := (Term.mem_freeVars_quantified ..).mp hy
    rcases ih hy with hy | hc
    · by_cases hyx : y = x
      -- the old name of the binder slipped out: it is in the image that led to the renaming
      · rw [hyx]
        exact .inr (captures_quantified hx hcaptures)
      · exact .inl ((Term.mem_freeVars_quantified ..).mpr ⟨hy, hyx⟩)
    · obtain ⟨z, image, himage, hz, hy⟩ := captures_iff.mp hc
      rw [get?_insert] at himage
      split at himage
      · obtain rfl := Option.some.inj himage
        exact absurd (Term.mem_freeVars_var.mp hy) hfresh
      · exact .inr (captures_quantified hx (captures_iff.mpr ⟨z, image, himage, hz, hy⟩))
  case passed =>
    intro σ q x body hx _ ih hy
    obtain ⟨hy, hyx⟩ := (Term.mem_freeVars_quantified ..).mp hy
    exact (ih hy).imp (fun hy => (Term.mem_freeVars_quantified ..).mpr ⟨hy, hyx⟩)
      (captures_quantified hx)

/-! ### What stays as it is -/

/-- A term stays as it is where no variable is replaced by anything but itself. -/
theorem apply_eq_self_of_fixes
    (h : ∀ x ∈ t.freeVars, ∀ image, σ.get? x = some image → image = .var x) : σ.apply t = t := by
  refine apply_induction (P := fun σ t u =>
    (∀ x ∈ t.freeVars, ∀ image, σ.get? x = some image → image = .var x) → u = t)
    ?app ?replaced ?kept ?not ?binary ?skipped ?renamed ?passed σ t h
  case app =>
    intro σ k f args ih h
    refine congrArg (Term.app k f)
      ((List.map_congr_left fun arg harg => ?_).trans (List.map_id' args))
    exact ih arg harg fun x hx => h x ((Term.mem_freeVars_app ..).mpr ⟨arg, harg, hx⟩)
  case replaced => exact fun σ x image himage h => h x (Term.mem_freeVars_var.mpr rfl) image himage
  case kept => exact fun σ x _ _ => rfl
  case not => exact fun σ t ih h => congrArg Term.not (ih h)
  case binary =>
    intro σ c l r ihl ihr h
    exact congrArg₂ (Term.binary c) (ihl fun x hx => h x (by simp [hx]))
      (ihr fun x hx => h x (by simp [hx]))
  case skipped => exact fun σ q x body _ _ => rfl
  case renamed =>
    intro σ q x body hx hcaptures _ h
    -- what is captured would be a variable in its own place, and the quantifier binds another one
    obtain ⟨y, image, himage, hy, hmem⟩ := captures_iff.mp hcaptures
    have hdomain := mem_domain_iff.mpr ⟨image, himage⟩
    rw [h y (mem_freeVars_quantified_of_mem_domain hx hdomain hy) image himage] at hmem
    exact absurd hdomain (Term.mem_freeVars_var.mp hmem ▸ hx)
  case passed =>
    intro σ q x body hx _ ih h
    refine congrArg (Term.quantified q x) (ih fun y hy image himage => ?_)
    have hdomain := mem_domain_iff.mpr ⟨image, himage⟩
    exact h y (mem_freeVars_quantified_of_mem_domain hx hdomain hy) image himage

/-- A term without variables to replace stays as it is. -/
theorem apply_eq_self (h : ∀ x ∈ t.freeVars, x ∉ σ.domain) : σ.apply t = t :=
  apply_eq_self_of_fixes fun x hx image himage =>
    absurd (mem_domain_iff.mpr ⟨image, himage⟩) (h x hx)

/-- The free variables of an instance: those that are not replaced stay, all others are free in the
term or in the image of one of its free variables, and where none is to be replaced the term does
not change. -/
theorem freeVars_apply_bounds (σ : Substitution) (t : Term) :
    (∀ y ∈ t.freeVars, y ∉ σ.domain → y ∈ (σ.apply t).freeVars) ∧
      (∀ y ∈ (σ.apply t).freeVars, y ∈ t.freeVars ∨
        ∃ x image, x ∈ t.freeVars ∧ σ.get? x = some image ∧ y ∈ image.freeVars) ∧
      ((∀ x ∈ t.freeVars, x ∉ σ.domain) → σ.apply t = t) := by
  refine ⟨fun y => mem_freeVars_apply_of_not_mem_domain, fun y hy => ?_, apply_eq_self⟩
  refine (mem_freeVars_of_mem_apply hy).imp_right fun hcaptures => ?_
  obtain ⟨x, image, himage, hx, hy⟩ := captures_iff.mp hcaptures
  exact ⟨x, image, hx, himage, hy⟩

/-- The formula `forall y. P(x, y, z) & (forall x. Q(x, y))`. -/
def reboundTwice : Term :=
  .quantified .universal "y" (.binary .and (.pred "P" [.var "x", .var "y", .var "z"])
    (.quantified .universal "x" (.pred "Q" [.var "x", .var "y"])))

/-- With `y` for `x`, the outer binder is renamed, `z` stays free and the inner `y` slips out; with
`y` for a variable that is not free nothing is renamed. -/
theorem freeVars_apply_reboundTwice :
    "z" ∈ ((single "x" (.var "y")).apply reboundTwice).freeVars ∧
      ("y" ∈ ((single "x" (.var "y")).apply reboundTwice).freeVars ∧ "y" ∉ reboundTwice.freeVars ∧
        ∃ x image, x ∈ reboundTwice.freeVars ∧ (single "x" (.var "y")).get? x = some image ∧
          "y" ∈ image.freeVars) ∧
      (single "w" (.var "y")).apply reboundTwice = reboundTwice := by
  have hfree : "y" ∈ ((single "x" (.var "y")).apply reboundTwice).freeVars := by decide
  have hbound : "y" ∉ reboundTwice.freeVars := by decide
  refine ⟨(freeVars_apply_bounds _ _).1 "z" (by decide) (by decide), ⟨hfree, hbound, ?_⟩, ?_⟩
  · exact ((freeVars_apply_bounds _ _).2.1 "y" hfree).resolve_left hbound
  · exact (freeVars_apply_bounds _ _).2.2 (by decide)

end SignedTableaux.Substitution
