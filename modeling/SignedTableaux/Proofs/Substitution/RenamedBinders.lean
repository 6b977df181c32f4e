import SignedTableaux.Proofs.Substitution.CaptureFree

/-!
# Renamed binders

A quantifier that would capture gets the least number that makes its name one that is not in the
body, not replaced and not in an image. All other quantifiers keep their names. So an application
that meets no quantifier that would capture does what a recursion without renaming does, and no
other does: a renamed binder never has the name it had.

## Main definitions

* `Substitution.applyPlain` — the recursion that keeps every binder
* `Substitution.Renames` — the application comes to a quantifier that would capture

## Main results

* `Substitution.apply_eq_applyPlain_iff` — the two recursions agree just where no binder is renamed
* `Substitution.CaptureFree.not_renames` — where this is so
* `Substitution.renamedBinder_spec` — which name a renamed binder gets, and when none is renamed
-/

namespace SignedTableaux.Substitution

variable {σ : Substitution} {x : String} {q : Quantifier} {t body : Term}

/-! ### The name of a renamed binder -/

theorem mem_avoided {name : String} :
    name ∈ σ.avoided body ↔ name ∈ body.symbols ∨ name ∈ σ.domain ∨
      ∃ y image, σ.get? y = some image ∧ name ∈ image.symbols := by
  simp [avoided, mem_imageSymbols]

/-- The image for which a binder is renamed has the old name. -/
theorem freshBinder_ne (h : σ.captures x body) : σ.freshBinder x body ≠ x := by
  obtain ⟨y, image, himage, -, hx⟩ := captures_iff.mp h
  have hmem : x ∈ σ.imageSymbols :=
    mem_imageSymbols.mpr ⟨y, image, himage, Term.freeVars_subset_symbols hx⟩
  exact fun heq => freshBinder_not_mem.2.2 (heq ▸ hmem)

/-! ### Without renaming -/

mutual

/-- Replaces every variable by its image and keeps every binder. A quantifier that binds a name of
the domain is left as it is. -/
def applyPlain (σ : Substitution) : Term → Term
  | .app k f args => .app k f (σ.applyPlainList args)
  | .var x => (σ.get? x).getD (.var x)
  | .not t => .not (σ.applyPlain t)
  | .binary c l r => .binary c (σ.applyPlain l) (σ.applyPlain r)
  | .quantified q x body =>
    if x ∈ σ.domain then .quantified q x body else .quantified q x (σ.applyPlain body)

/-- Replaces variables in every term of a list. -/
def applyPlainList (σ : Substitution) : List Term → List Term
  | [] => []
  | t :: ts => σ.applyPlain t :: σ.applyPlainList ts

end

theorem applyPlainList_eq_map (ts : List Term) : σ.applyPlainList ts = ts.map σ.applyPlain := by
  induction ts with
  | nil => rfl
  | cons t ts ih => exact congrArg (σ.applyPlain t :: ·) ih

theorem applyPlain_app (k : SymbolKind) (f : String) (args : List Term) :
    σ.applyPlain (.app k f args) = .app k f (args.map σ.applyPlain) :=
  congrArg (Term.app k f) (applyPlainList_eq_map args)

theorem applyPlain_quantified_of_mem (h : x ∈ σ.domain) :
    σ.applyPlain (.quantified q x body) = .quantified q x body :=
  if_pos h

theorem applyPlain_quantified_of_not_mem (h : x ∉ σ.domain) :
    σ.applyPlain (.quantified q x body) = .quantified q x (σ.applyPlain body) :=
  if_neg h

/-- Whether the application of `σ` to a term comes to a quantifier that would capture, and renames
it. -/
inductive Renames (σ : Substitution) : Term → Prop
  | here {q : Quantifier} {x : String} {body : Term} (hx : x ∉ σ.domain) (h : σ.captures x body) :
      Renames σ (.quantified q x body)
  | under {q : Quantifier} {x : String} {body : Term} (hx : x ∉ σ.domain)
      (hpass : ¬ σ.captures x body) (h : Renames σ body) : Renames σ (.quantified q x body)
  | arg {k : SymbolKind} {f : String} {args : List Term} {arg : Term} (harg : arg ∈ args)
      (h : Renames σ arg) : Renames σ (.app k f args)
  | negated {t : Term} (h : Renames σ t) : Renames σ (.not t)
  | left {c : Connective} {l r : Term} (h : Renames σ l) : Renames σ (.binary c l r)
  | right {c : Connective} {l r : Term} (h : Renames σ r) : Renames σ (.binary c l r)

theorem Renames.apply_ne (h : σ.Renames t) : σ.apply t ≠ σ.applyPlain t := by
  induction h with
  | here hx hcaptures =>
    rw [apply_quantified_of_captures hx hcaptures, applyPlain_quantified_of_not_mem hx]
    exact fun heq => freshBinder_ne hcaptures (Term.quantified.inj heq).2.1
  | under hx hpass _ ih =>
    rw [apply_quantified_of_not_captures hx hpass, applyPlain_quantified_of_not_mem hx]
    exact fun heq => ih (Term.quantified.inj heq).2.2
  | arg harg _ ih =>
    rw [apply_app, applyPlain_app]
    exact fun heq => ih (List.map_inj_left.mp (Term.app.inj heq).2.2 _ harg)
  | negated _ ih => exact fun heq => ih (Term.not.inj heq)
  | left _ ih => exact fun heq => ih (Term.binary.inj heq).2.1
  | right _ ih => exact fun heq => ih (Term.binary.inj heq).2.2

theorem apply_eq_applyPlain (h : ¬ σ.Renames t) : σ.apply t = σ.applyPlain t := by
  induction t with
  | app k f args ih =>
    rw [apply_app, applyPlain_app]
    refine congrArg (Term.app k f) (List.map_congr_left fun arg harg => ?_)
    exact ih arg harg fun harg' => h (.arg harg harg')
  | var x => rfl
  | not t ih => exact congrArg Term.not (ih fun ht => h (.negated ht))
  | binary c l r ihl ihr =>
    exact congrArg₂ (Term.binary c) (ihl fun hl => h (.left hl)) (ihr fun hr => h (.right hr))
  | quantified q x body ih =>
    by_cases hx : x ∈ σ.domain
    · rw [apply_quantified_of_mem hx, applyPlain_quantified_of_mem hx]
    · have hpass : ¬ σ.captures x body := fun hcaptures => h (.here hx hcaptures)
      rw [apply_quantified_of_not_captures hx hpass, applyPlain_quantified_of_not_mem hx,
        ih fun hbody => h (.under hx hpass hbody)]

/-- The application does what the recursion without renaming does just where it renames nothing. -/
theorem apply_eq_applyPlain_iff : σ.apply t = σ.applyPlain t ↔ ¬ σ.Renames t :=
  ⟨fun heq h => h.apply_ne heq, apply_eq_applyPlain⟩

theorem CaptureFree.not_renames (h : σ.CaptureFree t) : ¬ σ.Renames t := by
  intro hrenames
  induction hrenames with
  | here _ hcaptures =>
    obtain ⟨y, image, himage, -, hx⟩ := captures_iff.mp hcaptures
    exact h.not_mem himage hx
  | under _ _ _ ih => exact ih h.body
  | arg harg _ ih => exact ih (h.arg harg)
  | negated _ ih => exact ih h.negated
  | left _ ih => exact ih h.left
  | right _ ih => exact ih h.right

/-- A binder that would capture gets a number. The search for it, from one on and without a bound,
ends at the least number whose name is not to be avoided: it is neither in the body nor replaced nor
in an image. The number is at most one more than there are names to avoid. Where no bound name of a
term is free in an image, no binder is renamed, and the application is the recursion without
renaming. -/
theorem renamedBinder_spec (σ : Substitution) :
    (∀ x body, σ.captures x body →
      (∀ name, name ∈ σ.avoided body ↔ name ∈ body.symbols ∨ name ∈ σ.domain ∨
        ∃ y image, σ.get? y = some image ∧ name ∈ image.symbols) ∧
      ∃ n, (σ.avoided body).SearchFrom x 1 n ∧
        IsLeast {n | 1 ≤ n ∧ numbered x n ∉ σ.avoided body} n ∧ n ≤ (σ.avoided body).size + 1 ∧
        σ.freshBinder x body = numbered x n ∧
        ∀ q, x ∉ σ.domain → σ.apply (.quantified q x body) =
          .quantified q (numbered x n) ((σ.insert x (.var (numbered x n))).apply body)) ∧
    ∀ t, (∀ z ∈ t.boundNames, ∀ y image, σ.get? y = some image → z ∉ image.freeVars) →
      ¬ σ.Renames t ∧ σ.apply t = σ.applyPlain t := by
  constructor
  · intro x body hcaptures
    refine ⟨fun name => mem_avoided, (σ.avoided body).leastUnused x 1, ?_, ?_, ?_, rfl, ?_⟩
    · exact (σ.avoided body).searchFrom_leastUnused x 1
    · exact (σ.avoided body).isLeast_leastUnused x 1
    · rw [Nat.add_comm]
      exact (σ.avoided body).leastUnused_le x 1
    · exact fun q hx => apply_quantified_of_captures hx hcaptures
  · intro t hfree
    have hkeeps : ¬ σ.Renames t := CaptureFree.not_renames hfree
    exact ⟨hkeeps, apply_eq_applyPlain_iff.mpr hkeeps⟩

/-- With `y_3(y)` for `y_2`, the quantifier of `forall y. R(y_1, y_2, y)` is renamed: the body takes
the number one, the domain two and the image three. Those of `exists z. P(y_2, z) & (forall y_2.
Q(y_2, z))` keep their names. -/
theorem renamedBinder_threeTaken :
    let σ := single "y_2" (.fn "y_3" [.var "y"])
    let body := Term.pred "R" [.var "y_1", .var "y_2", .var "y"]
    let inner := Term.quantified .universal "y_2" (.pred "Q" [.var "y_2", .var "z"])
    let t := Term.quantified .existential "z"
      (.binary .and (.pred "P" [.var "y_2", .var "z"]) inner)
    (σ.captures "y" body ∧ (σ.avoided body).SearchFrom "y" 1 4 ∧
      σ.apply (.quantified .universal "y" body) =
        .quantified .universal "y_4" (.pred "R" [.var "y_1", .fn "y_3" [.var "y"], .var "y_4"])) ∧
      ¬ σ.Renames t ∧
        σ.apply t = .quantified .existential "z"
          (.binary .and (.pred "P" [.fn "y_3" [.var "y"], .var "z"]) inner) := by
  intro σ body inner t
  have hspec := renamedBinder_spec σ
  have hcaptures : σ.captures "y" body := by decide
  obtain ⟨-, n, hsearch, -, -, hname, happly⟩ := hspec.1 "y" body hcaptures
  obtain rfl : n = 4 := numbered_injective "y" (hname.symm.trans (by decide +kernel))
  have hfree : ∀ z ∈ t.boundNames.toList, z ∉ (Term.fn "y_3" [.var "y"]).freeVars := by decide
  obtain ⟨hkeeps, hplain⟩ := hspec.2 t (captureFree_single hfree)
  refine ⟨⟨hcaptures, hsearch, ?_⟩, hkeeps, hplain.trans (by decide +kernel)⟩
  exact (happly .universal (by decide)).trans (by decide +kernel)

end SignedTableaux.Substitution
