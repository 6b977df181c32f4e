import SignedTableaux.Proofs.Substitution.Lookup
import SignedTableaux.Proofs.Substitution.Nameless

/-!
# When substitution avoids capture

To replace `x` by `r` under a quantifier that binds a free variable of `r`, the quantifier is
renamed, and the new name travels down as one more binding of the substitution. A quantifier further
down that binds `x`, or a name renamed above it, is then left as it is, together with all the other
names that should be replaced below it. So the result is the textbook one exactly if no such name
occurs free there, which `Term.admits` decides.

## Main definitions

* `Term.admits` — whether a quantifier that is left as it is hides nothing that should be replaced
* `Substitution.Renaming` — a substitution on its way down, below some quantifiers

## Main results

* `Substitution.Renaming.nameless_apply_iff` — what a substitution does below some quantifiers
* `Term.nameless_substitute_iff` — substitution is the textbook one exactly for terms that admit it
-/

namespace SignedTableaux

namespace Term

mutual

/-- Whether `x` can be replaced by `r` below quantifiers that were renamed from the given names: a
quantifier that binds one of these names or `x`, and so is left as it is, must have none of the
others free. -/
def admits : Term → (x : String) → (r : Term) → (renamed : List String) → Bool
  | .app _ _ args, x, r, renamed => admitsList args x r renamed
  | .var _, _, _, _ => true
  | .not t, x, r, renamed => t.admits x r renamed
  | .binary _ l m, x, r, renamed => l.admits x r renamed && m.admits x r renamed
  | .quantified q z body, x, r, renamed =>
    if z ∈ x :: renamed then (x :: renamed).all (· ∉ (quantified q z body).freeVars)
    else if x ∈ body.freeVars ∧ z ∈ r.freeVars then body.admits x r (z :: renamed)
    else body.admits x r renamed

/-- Whether every term of a list admits the replacement. -/
def admitsList : List Term → (x : String) → (r : Term) → (renamed : List String) → Bool
  | [], _, _, _ => true
  | t :: ts, x, r, renamed => t.admits x r renamed && admitsList ts x r renamed

end

theorem admitsList_iff {ts : List Term} {x : String} {r : Term} {renamed : List String} :
    admitsList ts x r renamed ↔ ∀ t ∈ ts, t.admits x r renamed := by
  induction ts with
  | nil => simp [admitsList]
  | cons t ts ih => simp [admitsList, ih]

end Term

namespace Substitution

/-- The substitution `σ` that replaces `x` by `r`, below quantifiers that bind the names `Γ`. They
became `Δ`, the innermost first, and `renamed` are the names among them that had to change. -/
structure Renaming (x : String) (r : Term) (renamed Γ Δ : List String) (σ : Substitution)
    (t : Term) : Prop where
  image : σ.get? x = some r
  mem_domain : ∀ y, y ∈ σ.domain ↔ y = x ∨ y ∈ renamed
  /-- Only a name that occurs free in `r` is ever renamed. -/
  free : ∀ y ∈ renamed, y ∈ r.freeVars ∧ y ≠ x
  outside : x ∉ Γ ∧ x ∉ Δ
  apart : ∀ y ∈ renamed, y ∈ Γ ∧ y ∉ Δ
  kept : ∀ v ∈ t.freeVars, v ∉ σ.domain → Δ.idxOf? v = Γ.idxOf? v
  /-- A renamed name is replaced by a new one, which is bound where the old one was. -/
  moved : ∀ y ∈ renamed, ∃ y', σ.get? y = some (.var y') ∧ y' ∉ t.symbols ∧
    (y ∈ t.freeVars → Δ.idxOf? y' = Γ.idxOf? y)
  /-- As long as `x` occurs, no quantifier on the way binds a variable of `r`. -/
  clear : x ∈ t.freeVars → ∀ w ∈ Δ, w ∉ r.freeVars

namespace Renaming

variable {x z : String} {r t body : Term} {renamed Γ Δ : List String} {σ : Substitution}
  {q : Quantifier}

theorem single (x : String) (r t : Term) : Renaming x r [] [] [] (Substitution.single x r) t where
  image := by simp [get?_single]
  mem_domain y := by simp
  free := by simp
  outside := by simp
  apart := by simp
  kept := by simp
  moved := by simp
  clear := by simp

/-- A part of a term sees no more names than the term. -/
theorem part {s : Term} (h : Renaming x r renamed Γ Δ σ t)
    (hfree : ∀ y ∈ s.freeVars, y ∈ t.freeVars) (hsymbols : ∀ y ∈ s.symbols, y ∈ t.symbols) :
    Renaming x r renamed Γ Δ σ s where
  image := h.image
  mem_domain := h.mem_domain
  free := h.free
  outside := h.outside
  apart := h.apart
  kept v hv hdom := h.kept v (hfree v hv) hdom
  moved y hy := by
    obtain ⟨y', hget, hnew, hbound⟩ := h.moved y hy
    exact ⟨y', hget, fun hy' => hnew (hsymbols y' hy'), fun hv => hbound (hfree y hv)⟩
  clear hx := h.clear (hfree x hx)

theorem mem_domain_iff (h : Renaming x r renamed Γ Δ σ t) {y : String} :
    y ∈ σ.domain ↔ y ∈ x :: renamed := by
  rw [h.mem_domain y, List.mem_cons]

/-- Only the image of `x` can capture: the new names are no names of the term. -/
theorem captures_iff (h : Renaming x r renamed Γ Δ σ (.quantified q z body)) :
    σ.captures z body ↔ x ∈ body.freeVars ∧ z ∈ r.freeVars := by
  rw [Substitution.captures_iff]
  constructor
  · rintro ⟨y, image, hget, hy, hz⟩
    rcases (h.mem_domain y).mp (Substitution.mem_domain_iff.mpr ⟨image, hget⟩) with rfl | hy'
    · obtain rfl : r = image := Option.some.inj (h.image.symm.trans hget)
      exact ⟨hy, hz⟩
    · obtain ⟨y', hget', hnew, -⟩ := h.moved y hy'
      obtain rfl : Term.var y' = image := Option.some.inj (hget'.symm.trans hget)
      obtain rfl := Term.mem_freeVars_var.mp hz
      exact absurd ((Term.mem_symbols_quantified q body).mpr (.inl rfl)) hnew
  · rintro ⟨hx, hz⟩
    exact ⟨x, r, h.image, hx, hz⟩

/-- Below a quantifier that keeps its name. -/
theorem under_kept (h : Renaming x r renamed Γ Δ σ (.quantified q z body)) (hz : z ∉ σ.domain)
    (hcapture : ¬ σ.captures z body) : Renaming x r renamed (z :: Γ) (z :: Δ) σ body where
  image := h.image
  mem_domain := h.mem_domain
  free := h.free
  outside := by
    have hzx : x ≠ z := fun he => hz (he ▸ (h.mem_domain x).mpr (.inl rfl))
    simp [hzx, h.outside]
  apart y hy := by
    have hyz : y ≠ z := fun he => hz (he ▸ (h.mem_domain y).mpr (.inr hy))
    simp [hyz, h.apart y hy]
  kept v hv hdom := by
    by_cases hvz : v = z
    · simp [List.idxOf?_cons, hvz]
    · rw [idxOf?_cons_of_ne hvz, idxOf?_cons_of_ne hvz,
        h.kept v ((Term.mem_freeVars_quantified q body).mpr ⟨hv, hvz⟩) hdom]
  moved y hy := by
    obtain ⟨y', hget, hnew, hbound⟩ := h.moved y hy
    rw [Term.mem_symbols_quantified, not_or] at hnew
    refine ⟨y', hget, hnew.2, fun hv => ?_⟩
    have hyz : y ≠ z := fun he => hz (he ▸ (h.mem_domain y).mpr (.inr hy))
    rw [idxOf?_cons_of_ne hnew.1, idxOf?_cons_of_ne hyz,
      hbound ((Term.mem_freeVars_quantified q body).mpr ⟨hv, hyz⟩)]
  clear hx w hw := by
    have hxz : x ≠ z := fun he => hz (he ▸ (h.mem_domain x).mpr (.inl rfl))
    rcases List.mem_cons.mp hw with rfl | hw
    · exact fun hwr => hcapture (h.captures_iff.mpr ⟨hx, hwr⟩)
    · exact h.clear ((Term.mem_freeVars_quantified q body).mpr ⟨hx, hxz⟩) w hw

/-- Below a quantifier that is renamed. -/
theorem under_renamed (h : Renaming x r renamed Γ Δ σ (.quantified q z body)) (hz : z ∉ σ.domain)
    (hcapture : σ.captures z body) :
    Renaming x r (z :: renamed) (z :: Γ) (σ.freshBinder z body :: Δ)
      (σ.insert z (.var (σ.freshBinder z body))) body := by
  obtain ⟨hbody, hdomain, himages⟩ := @freshBinder_not_mem σ z body
  obtain ⟨hx, hzr⟩ := h.captures_iff.mp hcapture
  set z' := σ.freshBinder z body
  have hxz : x ≠ z := fun he => hz (he ▸ (h.mem_domain x).mpr (.inl rfl))
  have hrz : ∀ y ∈ renamed, y ≠ z := fun y hy he => hz (he ▸ (h.mem_domain y).mpr (.inr hy))
  have hz'r : ∀ y ∈ r.freeVars, y ≠ z' := fun y hy he =>
    himages (mem_imageSymbols.mpr ⟨x, r, h.image, he ▸ Term.freeVars_subset_symbols hy⟩)
  have hxt : x ∈ (Term.quantified q z body).freeVars :=
    (Term.mem_freeVars_quantified q body).mpr ⟨hx, hxz⟩
  exact {
    image := by rw [get?_insert, if_neg hxz, h.image]
    mem_domain := fun y => by
      rw [mem_domain_insert, h.mem_domain y, List.mem_cons]
      exact or_left_comm
    free := List.forall_mem_cons.mpr ⟨⟨hzr, hxz.symm⟩, h.free⟩
    outside := by
      have hxz' : x ≠ z' := fun he => hdomain (he ▸ (h.mem_domain x).mpr (.inl rfl))
      simp [hxz, hxz', h.outside]
    apart := by
      refine List.forall_mem_cons.mpr ⟨⟨by simp, ?_⟩, fun y hy => ⟨?_, ?_⟩⟩
      · rw [List.mem_cons, not_or]
        -- `z` is free in `r` and `x` still occurs, so no quantifier above binds `z`
        exact ⟨hz'r z hzr, fun hzΔ => h.clear hxt z hzΔ hzr⟩
      · exact List.mem_cons_of_mem z (h.apart y hy).1
      · rw [List.mem_cons, not_or]
        exact ⟨hz'r y (h.free y hy).1, (h.apart y hy).2⟩
    kept := fun v hv hdom => by
      rw [mem_domain_insert, not_or] at hdom
      have hvz' : v ≠ z' := fun he => hbody (he ▸ Term.freeVars_subset_symbols hv)
      rw [idxOf?_cons_of_ne hvz', idxOf?_cons_of_ne hdom.1,
        h.kept v ((Term.mem_freeVars_quantified q body).mpr ⟨hv, hdom.1⟩) hdom.2]
    moved := by
      refine List.forall_mem_cons.mpr ⟨⟨z', ?_, hbody, fun _ => ?_⟩, fun y hy => ?_⟩
      · rw [get?_insert, if_pos rfl]
      · simp [List.idxOf?_cons]
      · obtain ⟨y', hget, hnew, hbound⟩ := h.moved y hy
        rw [Term.mem_symbols_quantified, not_or] at hnew
        have hy'z' : y' ≠ z' := fun he =>
          himages (mem_imageSymbols.mpr ⟨y, _, hget, he ▸ Term.mem_symbols_var.mpr rfl⟩)
        refine ⟨y', by rw [get?_insert, if_neg (hrz y hy), hget], hnew.2, fun hv => ?_⟩
        rw [idxOf?_cons_of_ne hy'z', idxOf?_cons_of_ne (hrz y hy),
          hbound ((Term.mem_freeVars_quantified q body).mpr ⟨hv, hrz y hy⟩)]
    clear := fun _ w hw hwr => by
      rcases List.mem_cons.mp hw with rfl | hw
      · exact hz'r _ hwr rfl
      · exact h.clear hxt w hw hwr }

theorem nameless_image (h : Renaming x r renamed Γ Δ σ t) (hx : x ∈ t.freeVars) :
    r.nameless Δ = r.nameless [] :=
  Term.nameless_congr fun w hw => by
    rw [List.idxOf?_eq_none_iff.mpr fun hwΔ => h.clear hx w hwΔ hw, List.idxOf?_nil]

theorem exists_moved {y : String} (h : Renaming x r renamed Γ Δ σ t) (hy : y ∈ renamed)
    (hfree : y ∈ t.freeVars) :
    ∃ y' i, σ.get? y = some (.var y') ∧ resolve Γ y = .bound i ∧ resolve Δ y' = .bound i := by
  obtain ⟨y', hget, -, hbound⟩ := h.moved y hy
  obtain ⟨i, hi⟩ := Option.ne_none_iff_exists'.mp
    (List.idxOf?_eq_none_iff.not_left.mpr (h.apart y hy).1)
  exact ⟨y', i, hget, resolve_of_idxOf?_eq_some hi,
    resolve_of_idxOf?_eq_some ((hbound hfree).trans hi)⟩

/-- A free variable is replaced as it should be. -/
theorem nameless_apply_var {v : String} (h : Renaming x r renamed Γ Δ σ t) (hv : v ∈ t.freeVars) :
    (σ.apply (.var v)).nameless Δ = (resolve Γ v).replace x (r.nameless []) := by
  rw [apply_var]
  by_cases hdom : v ∈ σ.domain
  · rcases (h.mem_domain v).mp hdom with rfl | hvr
    · rw [h.image, Option.getD_some, resolve_of_not_mem h.outside.1, Nameless.replace, if_pos rfl,
        h.nameless_image hv]
    · obtain ⟨y', i, hget, hΓ, hΔ⟩ := h.exists_moved hvr hv
      rw [hget, Option.getD_some, hΓ, Nameless.replace, Term.nameless, hΔ]
  · have hvx : v ≠ x := fun he => hdom ((h.mem_domain v).mpr (.inl he))
    rw [get?_eq_none hdom, Option.getD_none, Term.nameless, resolve, resolve, h.kept v hv hdom]
    cases Γ.idxOf? v with
    | some i => rw [Nameless.replace]
    | none => rw [Nameless.replace, if_neg hvx]

/-- A free variable that is left as it is comes out right exactly if it need not be replaced. The
one exception would be `x` replaced by itself, but then no quantifier is renamed. -/
theorem resolve_eq_replace_iff {v : String} (h : Renaming x r renamed Γ Δ σ t)
    (hv : v ∈ t.freeVars) (hne : v = x → renamed ≠ []) :
    resolve Δ v = (resolve Γ v).replace x (r.nameless []) ↔ v ∉ x :: renamed := by
  rw [← h.mem_domain_iff, ← h.nameless_apply_var hv, apply_var]
  constructor
  · intro heq hdom
    rcases (h.mem_domain v).mp hdom with rfl | hvr
    · obtain ⟨y, hy⟩ := List.exists_mem_of_ne_nil renamed (hne rfl)
      rw [h.image, Option.getD_some, resolve_of_not_mem h.outside.2, h.nameless_image hv] at heq
      -- then `r` is `x`, although a renamed name, which is not `x`, is free in `r`
      obtain rfl := Term.eq_var_of_nameless_nil heq.symm
      exact (h.free y hy).2 (Term.mem_freeVars_var.mp (h.free y hy).1)
    · obtain ⟨y', i, hget, -, hΔ⟩ := h.exists_moved hvr hv
      rw [hget, Option.getD_some, Term.nameless, hΔ, resolve_of_not_mem (h.apart v hvr).2] at heq
      exact Nameless.noConfusion heq
  · intro hdom
    rw [get?_eq_none hdom, Option.getD_none, Term.nameless]

/-- A quantifier that is left as it is comes out right exactly if nothing free in it should be
replaced. -/
theorem nameless_skip_iff (h : Renaming x r renamed Γ Δ σ (.quantified q z body))
    (hz : z ∈ x :: renamed) :
    (Term.quantified q z body).nameless Δ =
        ((Term.quantified q z body).nameless Γ).replace x (r.nameless []) ↔
      ∀ y ∈ x :: renamed, y ∉ (Term.quantified q z body).freeVars := by
  rw [Term.nameless_eq_replace_iff r.nameless_nil_ne_bound]
  -- `x` is free here only below a renamed quantifier: otherwise the one met binds `x` itself
  have hne : ∀ v ∈ (Term.quantified q z body).freeVars, v = x → renamed ≠ [] := by
    rintro v hv rfl rfl
    exact ((Term.mem_freeVars_quantified q body).mp hv).2 (List.mem_singleton.mp hz).symm
  constructor
  · intro hall y hy hfree
    exact (h.resolve_eq_replace_iff hfree (hne y hfree)).mp (hall y hfree) hy
  · intro hall v hv
    exact (h.resolve_eq_replace_iff hv (hne v hv)).mpr fun hmem => hall v hmem hv

/-- Below any quantifiers, a substitution does what it should exactly to the terms that admit it. -/
theorem nameless_apply_iff (h : Renaming x r renamed Γ Δ σ t) :
    (σ.apply t).nameless Δ = (t.nameless Γ).replace x (r.nameless []) ↔ t.admits x r renamed := by
  induction t generalizing renamed Γ Δ σ with
  | app k f args ih =>
    simp only [apply_app, Term.nameless, Term.namelessList_eq_map, Nameless.replace,
      Nameless.replaceList_eq_map, List.map_map, Nameless.app.injEq, true_and, List.map_inj_left,
      Function.comp_apply, Term.admits, Term.admitsList_iff]
    refine forall₂_congr fun arg harg => ih arg harg (h.part (fun y hy => ?_) fun y hy => ?_)
    · exact (Term.mem_freeVars_app k f args).mpr ⟨arg, harg, hy⟩
    · exact (Term.mem_symbols_app k f args).mpr (.inr ⟨arg, harg, hy⟩)
  | var v =>
    have hv := h.nameless_apply_var (Term.mem_freeVars_var.mpr rfl)
    simpa [Term.nameless, Term.admits] using hv
  | not t ih =>
    have ht := ih (h.part (fun y hy => Term.mem_freeVars_not.mpr hy) fun y hy =>
      Term.mem_symbols_not.mpr hy)
    simpa [Term.nameless, Nameless.replace, Term.admits] using ht
  | binary c l m ihl ihm =>
    have hl := ihl (h.part (fun y hy => (Term.mem_freeVars_binary c l m).mpr (.inl hy)) fun y hy =>
      (Term.mem_symbols_binary c l m).mpr (.inl hy))
    have hm := ihm (h.part (fun y hy => (Term.mem_freeVars_binary c l m).mpr (.inr hy)) fun y hy =>
      (Term.mem_symbols_binary c l m).mpr (.inr hy))
    simp [Term.nameless, Nameless.replace, Term.admits, hl, hm]
  | quantified q z body ih =>
    rw [Term.admits]
    by_cases hz : z ∈ x :: renamed
    · rw [apply_quantified_of_mem (h.mem_domain_iff.mpr hz), h.nameless_skip_iff hz, if_pos hz]
      simp only [List.all_eq_true, decide_eq_true_eq]
    · have hdom : z ∉ σ.domain := h.mem_domain_iff.not.mpr hz
      rw [if_neg hz]
      by_cases hcapture : σ.captures z body
      · rw [apply_quantified_of_captures hdom hcapture, if_pos (h.captures_iff.mp hcapture),
          ← ih (h.under_renamed hdom hcapture)]
        simp [Term.nameless, Nameless.replace]
      · rw [apply_quantified_of_not_captures hdom hcapture, if_neg (h.captures_iff.not.mp hcapture),
          ← ih (h.under_kept hdom hcapture)]
        simp [Term.nameless, Nameless.replace]

end Renaming

end Substitution

namespace Term

variable {t r : Term} {x : String}

theorem nameless_substitute_iff :
    (t.substitute x r).nameless [] = (t.nameless []).replace x (r.nameless []) ↔
      t.admits x r [] :=
  (Substitution.Renaming.single x r t).nameless_apply_iff

/-- The free variables of a textbook result. -/
theorem freeVars_of_nameless_eq_replace {s : Term}
    (h : s.nameless [] = (t.nameless []).replace x (r.nameless [])) :
    s.freeVars =
      if x ∈ t.freeVars then t.freeVars.erase x ∪ r.freeVars else t.freeVars.erase x := by
  apply NameSet.ext
  intro y
  have hy : y ∈ s.freeVars ↔
      (y ∈ t.freeVars ∧ y ≠ x) ∨ (x ∈ t.freeVars ∧ y ∈ r.freeVars) := by
    have hmem : ∀ u : Term, ∀ z, z ∈ (u.nameless []).freeVars ↔ z ∈ u.freeVars := fun u z => by
      simp [mem_freeVars_nameless]
    rw [← hmem s y, h, Nameless.mem_freeVars_replace, hmem, hmem, hmem]
  rw [hy]
  split <;> simp [*]

/-- Replacing a variable by a term is the textbook substitution, up to the choice of bound names,
exactly if the term admits it; the free variables then are those left and those of `r`. -/
theorem substitute_textbook_iff (t : Term) (x : String) (r : Term) :
    ((t.substitute x r).nameless [] = (t.nameless []).replace x (r.nameless []) ∧
      (t.substitute x r).freeVars =
        if x ∈ t.freeVars then t.freeVars.erase x ∪ r.freeVars else t.freeVars.erase x) ↔
      t.admits x r [] := by
  rw [← nameless_substitute_iff]
  exact ⟨And.left, fun h => ⟨h, freeVars_of_nameless_eq_replace h⟩⟩

-- below the renamed `∀ y`, the inner `∀ y` still has the `x` that should be `y`
example :
    let t := quantified .universal "y" (binary .and (pred "P" [var "x"])
      (quantified .universal "y" (pred "Q" [var "x", var "y"])))
    t.admits "x" (var "y") [] = false ∧
      t.substitute "x" (var "y") = quantified .universal "y_1" (binary .and (pred "P" [var "y"])
        (quantified .universal "y" (pred "Q" [var "x", var "y"]))) := by
  decide

end Term

end SignedTableaux
