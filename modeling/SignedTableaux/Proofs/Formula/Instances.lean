import SignedTableaux.Proofs.Formula.RoundTrip
import SignedTableaux.Proofs.Substitution.CaptureFree
import SignedTableaux.Tableau.NameSupply

/-!
# Instances of legible formulas

Legibility depends on which names are in scope. It is kept when names are added that no function
has, and when an object is put in for a variable that goes out of scope. A formula that is legible
in some scope can be printed and read: reading binds the names of its quantifiers only, and binding
those of the scope afterwards gives the formula back.

## Main definitions

* `Term.Rescopes` — what an instance needs to be legible in another scope

## Main results

* `isName_numbered`, `isName_numbered_uppercase` — numbered names are names
* `Term.Legible.mono`, `Term.legible_substitute` — legibility in another scope, and of an instance
* `Term.bindNames_bindNames` — names can be bound in two steps
* `Term.Legible.exists_parse_render` — a legible formula is read back in its scope
-/

namespace SignedTableaux

/-! ### Numbered names -/

/-- A numbered name starts with its stem, and the underscore keeps it from being a keyword. -/
theorem isName_numbered {stem : String} (hne : stem.toList ≠ [])
    (hfirst : ∀ c ∈ stem.toList.head?, c.isDigit = false)
    (hchars : ∀ c ∈ stem.toList, Token.isNameChar c = true) (n : Nat) :
    IsName (numbered stem n) := by
  have htoList : (numbered stem n).toList = stem.toList ++ '_' :: n.repr.toList := by
    simp [numbered]
  have hunderscore : '_' ∈ (numbered stem n).toList := by simp [htoList]
  refine ⟨by simp [htoList], ?_, ?_, ?_, ?_⟩
  · rw [htoList, List.head?_append_of_ne_nil _ hne]
    exact hfirst
  · intro c hc
    rw [htoList, List.mem_append, List.mem_cons] at hc
    rcases hc with hc | rfl | hc
    · exact isNameChar_iff.mp (hchars c hc)
    · exact .inr rfl
    · rw [Nat.toList_repr] at hc
      have hdigit := Nat.isDigit_of_mem_toDigits (by decide) (by decide) hc
      exact .inl (by simp [Char.isAlphanum, hdigit])
  · intro heq
    rw [heq] at hunderscore
    simp at hunderscore
  · intro heq
    rw [heq] at hunderscore
    simp at hunderscore

namespace Text

/-- Whether the upper-case form of a character consists of name characters, the first of which is a
digit only if the character is. -/
def upperKeepsNames (c : Char) : Bool :=
  (upper c).all Token.isNameChar && (upper c).head?.any fun d => c.isDigit || !d.isDigit

theorem lt_of_isNameChar {c : Char} (h : Token.isNameChar c = true) : c.toNat < 128 := by
  rcases isNameChar_iff.mp h with halphanum | rfl
  · have hcases : (c.isUpper || c.isLower || c.isDigit) = true := halphanum
    rw [Bool.or_eq_true, Bool.or_eq_true] at hcases
    rcases hcases with (hupper | hlower) | hdigit
    · have hle : c.val ≤ 'Z'.val := (of_decide_eq_true hupper).2
      exact Nat.lt_of_le_of_lt (UInt32.le_iff_toNat_le.mp hle) (by decide)
    · have hle : c.val ≤ 'z'.val := of_decide_eq_true (Bool.and_eq_true_iff.mp hlower).2
      exact Nat.lt_of_le_of_lt (UInt32.le_iff_toNat_le.mp hle) (by decide)
    · exact Nat.lt_of_le_of_lt (Char.isDigit_iff_toNat.mp hdigit).2 (by decide)
  · decide

/-- What holds of the name characters of ASCII holds of all name characters. -/
theorem forall_isNameChar {P : Char → Bool} {c : Char} (h : Token.isNameChar c = true)
    (hall : ((List.range 128).all fun n =>
      !Token.isNameChar (Char.ofNat n) || P (Char.ofNat n)) = true) :
    P c = true := by
  have hc := List.all_eq_true.mp hall c.toNat (List.mem_range.mpr (lt_of_isNameChar h))
  simpa [Char.ofNat_toNat, h] using hc

/-- The names are ASCII texts, and so are their upper-case forms. -/
theorem upperKeepsNames_of_isNameChar {c : Char} (h : Token.isNameChar c = true) :
    upperKeepsNames c = true :=
  forall_isNameChar h (by decide +kernel)

end Text

theorem isName_numbered_uppercase {x : String} (h : IsName x) (n : Nat) :
    IsName (numbered (Text.uppercase x) n) := by
  have hkeeps : ∀ c ∈ x.toList, Text.upperKeepsNames c = true := fun c hc =>
    Text.upperKeepsNames_of_isNameChar (isNameChar_iff.mpr (h.chars c hc))
  obtain ⟨c, cs, hx⟩ := List.exists_cons_of_ne_nil h.ne_nil
  have hdigit : c.isDigit = false := h.first c (by simp [hx])
  obtain ⟨d, ds, hupper, hd⟩ : ∃ d ds, Text.upper c = d :: ds ∧ d.isDigit = false := by
    have hc := hkeeps c (by simp [hx])
    simp only [Text.upperKeepsNames, Bool.and_eq_true, Option.any_eq_true] at hc
    obtain ⟨-, d, hd, hnot⟩ := hc
    obtain ⟨ds, hupper⟩ := List.head?_eq_some_iff.mp hd
    exact ⟨d, ds, hupper, by simpa [hdigit] using hnot⟩
  have htoList : (Text.uppercase x).toList = x.toList.flatMap Text.upper := by
    simp [Text.uppercase]
  refine isName_numbered ?_ ?_ ?_ n
  · simp [htoList, hx, hupper]
  · simp [htoList, hx, hupper, hd]
  · intro d hd
    rw [htoList] at hd
    obtain ⟨c, hc, hd⟩ := List.mem_flatMap.mp hd
    have hall := hkeeps c hc
    rw [Text.upperKeepsNames, Bool.and_eq_true] at hall
    exact List.all_eq_true.mp hall.1 d hd

/-! ### Legibility in another scope -/

namespace Term

variable {t r : Term} {x : String} {scope scope' : List String}

/-- Names may be added to the scope if no function has them. -/
theorem Legible.mono (h : t.Legible scope) (hscope : scope ⊆ scope')
    (hfunctions : ∀ f ∈ t.symbolsOf .function, f ∈ scope' → f ∈ scope) : t.Legible scope' := by
  induction h generalizing scope' with
  | pred hname hobjects _ ih =>
    refine .pred hname hobjects fun arg harg => ih arg harg hscope fun f hf => ?_
    exact hfunctions f ((mem_symbolsOf_app ..).mpr (.inr ⟨arg, harg, hf⟩))
  | fn hname hconstant _ ih =>
    refine .fn hname (fun hargs hmem => hconstant hargs ?_) fun arg harg =>
      ih arg harg hscope fun f hf => ?_
    · exact hfunctions _ ((mem_symbolsOf_app ..).mpr (.inl ⟨rfl, rfl⟩)) hmem
    · exact hfunctions f ((mem_symbolsOf_app ..).mpr (.inr ⟨arg, harg, hf⟩))
  | var hname hbound => exact .var hname (hscope hbound)
  | not hformula _ ih =>
    exact .not hformula (ih hscope fun f hf => hfunctions f (by simpa using hf))
  | binary hleft hright _ _ ihl ihr =>
    exact .binary hleft hright (ihl hscope fun f hf => hfunctions f (by simp [hf]))
      (ihr hscope fun f hf => hfunctions f (by simp [hf]))
  | quantified hname hformula _ ih =>
    refine .quantified hname hformula (ih (List.cons_subset_cons _ hscope) fun f hf hmem => ?_)
    rcases List.mem_cons.mp hmem with rfl | hmem
    · exact List.mem_cons_self
    · exact List.mem_cons_of_mem _ (hfunctions f (by simpa using hf) hmem)

theorem IsObject.isFormula_eq (h : t.IsObject) : t.isFormula = false := by
  cases h <;> rfl

theorem IsObject.substitute (h : t.IsObject) (hr : r.IsObject) : (t.substitute x r).IsObject := by
  induction h with
  | var y =>
    rw [Term.substitute, Substitution.apply_var, Substitution.get?_single]
    split
    · exact hr
    · exact .var y
  | fn f _ ih =>
    rw [Term.substitute, Substitution.apply_app]
    exact .fn f (List.forall_mem_map.mpr ih)

/-- What an instance of `t` needs: from where `t` is legible to where the instance is, all names but
`x` stay in scope, no name of a function comes into scope, and nothing put in is bound. -/
structure Rescopes (t : Term) (x : String) (r : Term) (scope scope' : List String) : Prop where
  stays : ∀ y ∈ scope, y ≠ x → y ∈ scope'
  functions : ∀ f ∈ t.symbolsOf .function, f ∈ scope' → f ∈ scope
  bound : ∀ f ∈ r.symbolsOf .function, f ∉ t.boundNames
  image : r.Legible scope'

namespace Rescopes

variable {k : SymbolKind} {f : String} {args : List Term} {c : Connective} {l u : Term}
  {q : Quantifier} {z : String}

theorem arg (h : (Term.app k f args).Rescopes x r scope scope') (ht : t ∈ args) :
    t.Rescopes x r scope scope' where
  stays := h.stays
  functions g hg := h.functions g ((mem_symbolsOf_app ..).mpr (.inr ⟨t, ht, hg⟩))
  bound g hg hmem := h.bound g hg ((mem_boundNames_app ..).mpr ⟨t, ht, hmem⟩)
  image := h.image

theorem negated (h : (Term.not t).Rescopes x r scope scope') : t.Rescopes x r scope scope' where
  stays := h.stays
  functions g hg := h.functions g (by simpa using hg)
  bound g hg hmem := h.bound g hg (by simpa using hmem)
  image := h.image

theorem left (h : (Term.binary c l u).Rescopes x r scope scope') : l.Rescopes x r scope scope' where
  stays := h.stays
  functions g hg := h.functions g (by simp [hg])
  bound g hg hmem := h.bound g hg (by simp [hmem])
  image := h.image

theorem right (h : (Term.binary c l u).Rescopes x r scope scope') :
    u.Rescopes x r scope scope' where
  stays := h.stays
  functions g hg := h.functions g (by simp [hg])
  bound g hg hmem := h.bound g hg (by simp [hmem])
  image := h.image

theorem body (h : (Term.quantified q z t).Rescopes x r scope scope') :
    t.Rescopes x r (z :: scope) (z :: scope') where
  stays y hy hne := by
    rcases List.mem_cons.mp hy with rfl | hy
    · exact List.mem_cons_self
    · exact List.mem_cons_of_mem _ (h.stays y hy hne)
  functions g hg hmem := by
    rcases List.mem_cons.mp hmem with rfl | hmem
    · exact List.mem_cons_self
    · exact List.mem_cons_of_mem _ (h.functions g (by simpa using hg) hmem)
  bound g hg hmem := h.bound g hg (by simp [hmem])
  image := by
    refine h.image.mono (List.subset_cons_self _ _) fun g hg hmem => ?_
    rcases List.mem_cons.mp hmem with rfl | hmem
    · exact absurd (by simp) (h.bound _ hg)
    · exact hmem

end Rescopes

/-- An instance of a legible term is legible, and a formula just if the term is one. -/
theorem legible_substitute (hcapture : (Substitution.single x r).CaptureFree t) (hr : r.IsObject) :
    (t.substitute x r).isFormula = t.isFormula ∧ ∀ scope scope', t.Legible scope →
      t.Rescopes x r scope scope' → (t.substitute x r).Legible scope' := by
  refine substitute_induction (P := fun t u => u.isFormula = t.isFormula ∧ ∀ scope scope',
    t.Legible scope → t.Rescopes x r scope scope' → u.Legible scope')
    ?app ?replaced ?kept ?not ?binary ?skipped ?quantified hcapture
  case app =>
    intro k f args ih
    refine ⟨by cases k <;> rfl, fun scope scope' h hrescopes => ?_⟩
    have hargs : ∀ arg ∈ args, arg.Legible scope → (arg.substitute x r).Legible scope' :=
      fun arg harg hlegible => (ih arg harg).2 scope scope' hlegible (hrescopes.arg harg)
    cases h with
    | pred hname hobjects h =>
      refine .pred hname
        (List.forall_mem_map.mpr fun arg harg => (hobjects arg harg).substitute hr) ?_
      exact List.forall_mem_map.mpr fun arg harg => hargs arg harg (h arg harg)
    | fn hname hconstant h =>
      refine .fn hname (fun hnil hmem => hconstant (List.map_eq_nil_iff.mp hnil) ?_) ?_
      · exact hrescopes.functions f ((mem_symbolsOf_app ..).mpr (.inl ⟨rfl, rfl⟩)) hmem
      · exact List.forall_mem_map.mpr fun arg harg => hargs arg harg (h arg harg)
  case replaced => exact ⟨hr.isFormula_eq, fun _ _ _ hrescopes => hrescopes.image⟩
  case kept =>
    intro z hz
    refine ⟨rfl, fun scope scope' h hrescopes => ?_⟩
    cases h with
    | var hname hbound => exact .var hname (hrescopes.stays z hbound hz)
  case not =>
    intro t ih
    refine ⟨rfl, fun scope scope' h hrescopes => ?_⟩
    cases h with
    | not hformula h => exact .not (ih.1.trans hformula) (ih.2 _ _ h hrescopes.negated)
  case binary =>
    intro c l u ihl ihu
    refine ⟨rfl, fun scope scope' h hrescopes => ?_⟩
    cases h with
    | binary hleft hright hl hu =>
      exact .binary (ihl.1.trans hleft) (ihu.1.trans hright) (ihl.2 _ _ hl hrescopes.left)
        (ihu.2 _ _ hu hrescopes.right)
  case skipped =>
    intro q body
    refine ⟨rfl, fun scope scope' h hrescopes => ?_⟩
    cases h with
    | quantified hname hformula h =>
      refine .quantified hname hformula (h.mono (fun y hy => ?_) hrescopes.body.functions)
      by_cases hyx : y = x
      · exact hyx ▸ List.mem_cons_self
      · exact hrescopes.body.stays y hy hyx
  case quantified =>
    intro q z body _ _ ih
    refine ⟨rfl, fun scope scope' h hrescopes => ?_⟩
    cases h with
    | quantified hname hformula h =>
      exact .quantified hname (ih.1.trans hformula) (ih.2 _ _ h hrescopes.body)

/-! ### Binding names in two steps -/

/-- Which names are bound depends only on which are in scope. -/
theorem bindNames_congr (h : ∀ y, y ∈ scope ↔ y ∈ scope') :
    t.bindNames scope = t.bindNames scope' := by
  induction t generalizing scope scope' with
  | app k f args ih =>
    have hargs : args.map (bindNames scope) = args.map (bindNames scope') :=
      List.map_congr_left fun arg harg => ih arg harg h
    rw [bindNames_app, bindNames_app, hargs]
    simp only [h]
  | var y => rw [bindNames, bindNames]
  | not t ih => rw [bindNames, bindNames, ih h]
  | binary c l r ihl ihr => rw [bindNames, bindNames, ihl h, ihr h]
  | quantified q z body ih =>
    have hcons : ∀ y, y ∈ z :: scope ↔ y ∈ z :: scope' := fun y => by simp only [List.mem_cons, h]
    rw [bindNames, bindNames, ih hcons]

theorem bindNames_bindNames (t : Term) (scope scope' : List String) :
    (t.bindNames scope).bindNames scope' = t.bindNames (scope ++ scope') := by
  induction t generalizing scope scope' with
  | app k f args ih =>
    have hargs : (args.map (bindNames scope)).map (bindNames scope') =
        args.map (bindNames (scope ++ scope')) := by
      rw [List.map_map]
      exact List.map_congr_left fun arg harg => ih arg harg scope scope'
    -- what the first step binds is a variable, which the second leaves alone
    by_cases hbound : k = .function ∧ args = [] ∧ f ∈ scope
    · obtain ⟨rfl, rfl, hf⟩ := hbound
      simp [bindNames, hf]
    · rw [bindNames_app, if_neg hbound, bindNames_app, bindNames_app, hargs]
      refine if_congr ?_ rfl rfl
      rw [List.map_eq_nil_iff, List.mem_append]
      tauto
  | var y => rw [bindNames, bindNames, bindNames]
  | not t ih => rw [bindNames, bindNames, bindNames, ih]
  | binary c l r ihl ihr => rw [bindNames, bindNames, bindNames, ihl, ihr]
  | quantified q z body ih =>
    rw [bindNames, bindNames, bindNames, ih]
    refine congrArg (Term.quantified q z) (bindNames_congr fun y => ?_)
    simp only [List.mem_append, List.mem_cons]
    tauto

/-- A formula that is legible in a scope is read back from its printed form, once the names in scope
are bound in what is read. -/
theorem Legible.exists_parse_render (h : t.Legible scope) (hformula : t.isFormula = true) :
    ∃ u, Formula.parse t.render = .ok u ∧ u.bindNames scope = t := by
  obtain ⟨ts, raw, hspells, hbind, hwritten⟩ := exists_writes h hformula
  refine ⟨raw.bindNames [], Formula.parse_eq_ok_iff.mpr ⟨raw, ?_, rfl⟩, ?_⟩
  · rw [hspells.tokenize_eq]
    exact hwritten.body
  · rw [bindNames_bindNames, List.nil_append, hbind]

end Term

end SignedTableaux
