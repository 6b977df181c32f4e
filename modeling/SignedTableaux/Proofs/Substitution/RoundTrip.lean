import SignedTableaux.Proofs.Substitution.Entries
import SignedTableaux.Term.Printer

/-!
# Printed substitutions are read back

A substitution is printed as its bindings, with spaced bars between them. Neither the names nor the
printed terms of a legible one have a bar or a slash, so the text is cut where it was joined. Each
piece is then a binding with a space on one or both sides, which trimming takes away.

## Main definitions

* `Substitution.LegibleIn` — names are bound to objects that are legible where some names are
  variables
* `Text.Padded` — some characters with spaces around them

## Main results

* `Text.exists_padded_pieces` — what is joined with spaced bars is cut at the bars into padded
  pieces
* `Substitution.parse_render` — legible substitutions are read back
* `Substitution.legibleIn_of_parse` — what is read is legible
* `Substitution.legibleIn_iff_parse_render` — just the legible substitutions are read back
-/

namespace SignedTableaux

/-! ### Spaced pieces -/

namespace Text

/-- Some characters with spaces around them. -/
inductive Padded (cs : List Char) : List Char → Prop
  | pad {before after : List Char} (hbefore : ∀ c ∈ before, c = ' ')
      (hafter : ∀ c ∈ after, c = ' ') :
      Padded cs (before ++ cs ++ after)

/-- Items that are joined with spaces around each bar are the pieces between the bars, up to
spaces. -/
theorem exists_padded_pieces (bar : Char) {before : List Char} (hbefore : ∀ c ∈ before, c = ' ')
    {items : List (List Char)} (hne : items ≠ []) :
    ∃ pieces, [bar].intercalate pieces = before ++ [' ', bar, ' '].intercalate items ∧
      List.Forall₂ (fun piece item => Padded item piece) pieces items := by
  -- the space after a bar is padding of the item that follows
  induction items generalizing before with
  | nil => exact absurd rfl hne
  | cons item items ih =>
    by_cases hnil : items = []
    · subst hnil
      exact ⟨[before ++ item ++ []], by simp, .cons (.pad hbefore (by simp)) .nil⟩
    · have hspace : ∀ c ∈ [' '], c = ' ' := by simp
      obtain ⟨pieces, hjoin, hpadded⟩ := ih hspace hnil
      have hpieces : pieces ≠ [] := by
        rintro rfl
        cases hpadded
        exact hnil rfl
      refine ⟨(before ++ item ++ [' ']) :: pieces, ?_, .cons (.pad hbefore (by simp)) hpadded⟩
      rw [List.intercalate_cons_of_ne_nil hpieces, hjoin, List.intercalate_cons_of_ne_nil hnil]
      simp

end Text

namespace Substitution

variable {vars : List String} {σ : Substitution}

/-- Whether every name is a name, and is mapped to an object that is legible where the names in
`vars` are variables. -/
def LegibleIn (vars : List String) (σ : Substitution) : Prop :=
  ∀ x t, σ.get? x = some t → IsName x ∧ t.IsObject ∧ t.Legible vars

/-! ### Printed bindings -/

/-- The characters of a printed binding. -/
def bindingChars (b : String × Term) : List Char :=
  b.1.toList ++ '/' :: b.2.render.toList

theorem toList_render (σ : Substitution) :
    σ.render.toList = [' ', '|', ' '].intercalate (σ.bindings.map bindingChars) := by
  rw [render, String.toList_intercalate, List.map_map]
  congr 1
  exact List.map_congr_left fun b _ => by simp [bindingChars]

/-- Trimming takes away the spaces around a text. -/
theorem trimmed_pad {text : String} {before after : List Char} (h : Text.Trimmed text.toList)
    (hbefore : ∀ c ∈ before, c = ' ') (hafter : ∀ c ∈ after, c = ' ') :
    trimmed (before ++ text.toList ++ after) = text := by
  have hspace : Text.isBlank ' ' = true := by decide
  rw [trimmed, Text.trim_pad h (fun c hc => hbefore c hc ▸ hspace) fun c hc => hafter c hc ▸ hspace,
    String.ofList_toList]

/-- Neither a slash nor a bar stands in a printed object. -/
theorem not_mem_of_isObjectChar {cs : List Char} (h : ∀ c ∈ cs, Term.IsObjectChar c) :
    '/' ∉ cs ∧ '|' ∉ cs := by
  have hmarks : ¬ Term.IsObjectChar '/' ∧ ¬ Term.IsObjectChar '|' := by
    unfold Term.IsObjectChar
    decide
  exact ⟨mt (h '/') hmarks.1, mt (h '|') hmarks.2⟩

/-- A padded binding of a name to a legible object is an entry that binds it, and has no bar. -/
theorem binds_of_padded {piece : List Char} {x : String} {t : Term} (hname : IsName x)
    (hobject : t.IsObject) (hlegible : t.Legible vars)
    (h : Text.Padded (bindingChars (x, t)) piece) :
    Binds vars piece (x, t) ∧ '|' ∉ piece := by
  obtain @⟨before, after, hbefore, hafter⟩ := h
  have hspace : Term.IsObjectChar ' ' := .inr (by simp)
  have hleft : '/' ∉ before ++ x.toList ∧ '|' ∉ before ++ x.toList := by
    refine not_mem_of_isObjectChar (List.forall_mem_append.mpr ⟨?_, ?_⟩)
    · exact fun c hc => hbefore c hc ▸ hspace
    · exact fun c hc => .inl (hname.isNameChar hc)
  have hright : '/' ∉ t.render.toList ++ after ∧ '|' ∉ t.render.toList ++ after := by
    refine not_mem_of_isObjectChar (List.forall_mem_append.mpr ⟨?_, ?_⟩)
    · exact Term.isObjectChar_render hobject hlegible
    · exact fun c hc => hafter c hc ▸ hspace
  have hx : trimmed (before ++ x.toList) = x := by
    simpa using trimmed_pad hname.trimmed hbefore (List.forall_mem_nil _)
  have ht : trimmed (t.render.toList ++ after) = t.render := by
    simpa using trimmed_pad (Term.trimmed_render hobject hlegible) (List.forall_mem_nil _) hafter
  have hpiece : before ++ bindingChars (x, t) ++ after =
      (before ++ x.toList) ++ '/' :: (t.render.toList ++ after) := by
    simp [bindingChars]
  rw [hpiece]
  constructor
  · have hbinds : Binds vars _ (trimmed (before ++ x.toList), t) :=
      .slash hleft.1 hright.1 (hx.symm ▸ hname) (ht.symm ▸ Term.parse_render hobject hlegible)
    rwa [hx] at hbinds
  · rw [List.mem_append, List.mem_cons]
    rintro (hmem | heq | hmem)
    · exact hleft.2 hmem
    · exact absurd heq (by decide)
    · exact hright.2 hmem

theorem forall₂_binds_of_padded {pieces : List (List Char)} {bs : List (String × Term)}
    (h : List.Forall₂ (fun piece b => Text.Padded (bindingChars b) piece) pieces bs)
    (hlegible : ∀ b ∈ bs, IsName b.1 ∧ b.2.IsObject ∧ b.2.Legible vars) :
    List.Forall₂ (Binds vars) pieces bs ∧ ∀ piece ∈ pieces, '|' ∉ piece := by
  induction h with
  | nil => exact ⟨.nil, by simp⟩
  | cons hpadded _ ih =>
    obtain ⟨⟨hname, hobject, hterm⟩, hrest⟩ := List.forall_mem_cons.mp hlegible
    obtain ⟨hbinds, hbar⟩ := binds_of_padded hname hobject hterm hpadded
    obtain ⟨hall, hbars⟩ := ih hrest
    exact ⟨.cons hbinds hall, List.forall_mem_cons.mpr ⟨hbar, hbars⟩⟩

theorem ofList_bindings (σ : Substitution) : ofList σ.bindings = σ :=
  (ofList_eq_iff (σ.ascending.imp String.ne_of_lt)).mpr ⟨fun _ => mem_bindings_iff.mp, rfl⟩

/-- A legible substitution is read back from its printed form. -/
theorem parse_render (h : σ.LegibleIn vars) : parse σ.render vars = .ok σ := by
  by_cases hnil : σ.bindings = []
  · have hempty : σ = ∅ := eq_of_perm (.of_eq hnil)
    rw [hempty]
    rfl
  · obtain ⟨pieces, hjoin, hpadded⟩ := Text.exists_padded_pieces '|' (List.forall_mem_nil (· = ' '))
      (mt List.map_eq_nil_iff.mp hnil : σ.bindings.map bindingChars ≠ [])
    rw [List.nil_append, ← toList_render] at hjoin
    rw [List.forall₂_map_right_iff] at hpadded
    obtain ⟨hbinds, hbar⟩ :=
      forall₂_binds_of_padded hpadded fun b hb => h b.1 b.2 (mem_bindings_iff.mp hb)
    have hne : pieces ≠ [] := by
      rintro rfl
      exact hnil (List.forall₂_nil_left_iff.mp hbinds)
    have hpieces : Text.Pieces '|' σ.render.toList pieces := ⟨hne, hbar, hjoin⟩
    have hnot : ∃ c ∈ σ.render.toList, Text.isBlank c = false := by
      obtain ⟨piece, rest, rfl⟩ := List.exists_cons_of_ne_nil hne
      obtain ⟨b, -, hpiece, -, -⟩ := List.forall₂_cons_left_iff.mp hbinds
      exact ⟨'/', hpieces.mem_of_mem List.mem_cons_self hpiece.slash_mem, by decide⟩
    rw [parse_of_bindsAll hnot hpieces ⟨hbinds, σ.ascending.imp String.ne_of_lt⟩, ofList_bindings]

/-! ### What is read -/

theorem exists_piece {pieces : List (List Char)} {bs : List (String × Term)} {b : String × Term}
    (h : List.Forall₂ (Binds vars) pieces bs) (hb : b ∈ bs) : ∃ piece, Binds vars piece b := by
  induction h with
  | nil => cases hb
  | cons hbinds _ ih =>
    rcases List.mem_cons.mp hb with rfl | hb
    · exact ⟨_, hbinds⟩
    · exact ih hb

/-- What is read from a text is a legible substitution. -/
theorem legibleIn_of_parse {text : String} (h : parse text vars = .ok σ) : σ.LegibleIn vars := by
  by_cases hnot : ∃ c ∈ text.toList, Text.isBlank c = false
  · obtain ⟨pieces, hpieces⟩ : ∃ pieces, Text.Pieces '|' text.toList pieces :=
      ⟨_, Text.pieces_iff.mpr rfl⟩
    rcases parse_cases vars hnot hpieces with ⟨bs, hbs, hok⟩ | ⟨_, _, _, _, e, _, _, _, herror⟩
    · rw [hok] at h
      obtain rfl := Except.ok.inj h
      intro x t hget
      have hmem := (perm_bindings_ofList hbs.distinct).mem_iff.mp (mem_bindings_iff.mpr hget)
      obtain ⟨piece, hbinds⟩ := exists_piece hbs.each hmem
      cases hbinds with
      | slash _ _ hname hterm => exact ⟨hname, Term.legible_of_parse hterm⟩
    · rw [herror] at h
      cases h
  · have hblank : ∀ c ∈ text.toList, Text.isBlank c = true := by simpa using hnot
    rw [parse, if_pos (Text.trim_eq_nil_iff.mpr hblank)] at h
    obtain rfl := Except.ok.inj h
    intro x t hget
    cases hget

/-- Just the legible substitutions are read back from their printed forms. What is read from any
text is legible, so it is read back. -/
theorem legibleIn_iff_parse_render (vars : List String) :
    (∀ σ : Substitution, σ.LegibleIn vars ↔ parse σ.render vars = .ok σ) ∧
      ∀ (text : String) (σ : Substitution), parse text vars = .ok σ →
        σ.LegibleIn vars ∧ parse σ.render vars = .ok σ := by
  refine ⟨fun σ => ⟨parse_render, legibleIn_of_parse⟩, fun text σ hread => ?_⟩
  have hlegible := legibleIn_of_parse hread
  exact ⟨hlegible, parse_render hlegible⟩

/-- A text with blanks in other places and its names in another order. -/
theorem parse_render_twoBindings :
    let σ := ofList [("z", .fn "f" [.var "X_1", .fn "a" []]), ("X_1", .fn "g" [])]
    parse " z/f(X_1,a) | X_1 / g( ) " ["X_1"] = .ok σ ∧ σ.LegibleIn ["X_1"] ∧
      σ.render = "X_1/g | z/f(X_1, a)" ∧ parse σ.render ["X_1"] = .ok σ := by
  intro σ
  have hread : parse " z/f(X_1,a) | X_1 / g( ) " ["X_1"] = .ok σ := by decide +kernel
  have hrender : σ.render = "X_1/g | z/f(X_1, a)" := by decide +kernel
  obtain ⟨hlegible, hback⟩ := (legibleIn_iff_parse_render ["X_1"]).2 _ _ hread
  exact ⟨hread, hlegible, hrender, hback⟩

end Substitution

end SignedTableaux
