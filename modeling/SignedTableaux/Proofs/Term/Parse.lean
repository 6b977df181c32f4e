import SignedTableaux.Proofs.Formula.Instances
import SignedTableaux.Proofs.Formula.Language
import SignedTableaux.Proofs.Text.Pieces

/-!
# Terms and names in a text

A term is read from a text by the grammar of terms alone, and its variables are the names that are
given for it. What is read is a legible object, and a legible object is read back from its printed
form. A name is read with separators around it; in a trimmed text it is the whole text.

## Main results

* `Term.parse_eq_ok_iff` — what is read is what the tokens write, with its names bound
* `Term.legible_of_parse`, `Term.parse_render` — what is read is legible, and what is legible is
  read back
* `Term.trimmed_render` — a legible object is printed without blanks around it
* `isIdentifier_trim_iff` — when a trimmed text is a name
-/

namespace SignedTableaux

/-! ### Blanks and names -/

theorem Token.isBlank_of_isSeparator {c : Char} (h : isSeparator c = true) :
    Text.isBlank c = true := by
  have hc : c = ' ' ∨ c = '\t' ∨ c = '\r' ∨ c = '\n' := by simpa using isSeparator_iff.mp h
  rcases hc with rfl | rfl | rfl | rfl <;> decide

theorem Token.isBlank_of_isNameChar {c : Char} (h : isNameChar c = true) :
    Text.isBlank c = false := by
  have hnot : (!Text.isBlank c) = true :=
    Text.forall_isNameChar (P := fun c => !Text.isBlank c) h (by decide +kernel)
  simpa using hnot

theorem IsName.isNameChar {x : String} (h : IsName x) {c : Char} (hc : c ∈ x.toList) :
    Token.isNameChar c = true :=
  isNameChar_iff.mpr (h.chars c hc)

theorem IsName.trimmed {x : String} (h : IsName x) : Text.Trimmed x.toList where
  first _ hc := Token.isBlank_of_isNameChar (h.isNameChar (List.mem_of_mem_head? hc))
  last _ hc := Token.isBlank_of_isNameChar (h.isNameChar (List.mem_of_mem_getLast? hc))

theorem isBlank_of_lexes_nil {cs : List Char} (h : Lexes cs []) :
    ∀ c ∈ cs, Text.isBlank c = true := by
  generalize hts : ([] : List Token) = ts at h
  induction h with
  | nil => simp
  | separator hc _ ih =>
    exact List.forall_mem_cons.mpr ⟨Token.isBlank_of_isSeparator (isSeparator_iff.mpr hc), ih hts⟩
  | name _ _ _ _ | keyword _ _ _ _ | sign _ _ _ | arrow _ _ => cases hts

/-- A text that is one name, apart from separators, is that name once it is trimmed. -/
theorem trim_of_lexes_name {cs : List Char} {x : String} (h : Lexes cs [.name x]) :
    Text.trim cs = x.toList := by
  obtain ⟨before, after, hbefore, hafter, rfl⟩ : ∃ before after,
      (∀ c ∈ before, Text.isBlank c = true) ∧
      (∀ c ∈ after, Text.isBlank c = true) ∧ cs = before ++ x.toList ++ after := by
    generalize hts : [Token.name x] = ts at h
    induction h with
    | nil => cases hts
    | @separator c cs ts hc _ ih =>
      obtain ⟨before, after, hbefore, hafter, rfl⟩ := ih hts
      have hblank := Token.isBlank_of_isSeparator (isSeparator_iff.mpr hc)
      exact ⟨c :: before, after, List.forall_mem_cons.mpr ⟨hblank, hbefore⟩, hafter, rfl⟩
    | @name y cs ts _ _ h _ =>
      obtain ⟨rfl, rfl⟩ : x = y ∧ [] = ts := by simpa using hts
      exact ⟨[], cs, by simp, isBlank_of_lexes_nil h, rfl⟩
    | keyword _ _ _ _ => cases hts
    | sign hc _ _ =>
      obtain ⟨rfl, -⟩ := List.cons.inj hts
      cases hc
    | arrow _ _ => cases hts
  have hname : IsName x := isName_of_mem_tokenize (by rw [h.tokenize_eq]; exact List.mem_cons_self)
  exact Text.trim_pad hname.trimmed hbefore hafter

theorem isIdentifier_iff {text : String} :
    isIdentifier text = true ↔ ∃ x, tokenize text.toList = [.name x] := by
  have hok {ε α : Type} (r : Except ε α) : r.isOk = true ↔ ∃ a, r = .ok a := by
    cases r <;> simp [Except.isOk, Except.toBool]
  simp [isIdentifier, hok, parseWith_eq_ok_iff, Grammar.wholeName, Grammar.whole]

/-- A trimmed text is read as a name just if it is one. -/
theorem isIdentifier_trim_iff (cs : List Char) :
    isIdentifier (String.ofList (Text.trim cs)) = true ↔ IsName (String.ofList (Text.trim cs)) := by
  rw [isIdentifier_iff, String.toList_ofList]
  constructor
  · rintro ⟨x, hx⟩
    have hlexes : Lexes (Text.trim cs) [.name x] := lexes_iff.mpr ⟨hx, by simp [NoStray]⟩
    have hself :=
      Text.trim_pad (Text.trimmed_trim cs) (List.forall_mem_nil _) (List.forall_mem_nil _)
    rw [List.nil_append, List.append_nil, trim_of_lexes_name hlexes] at hself
    rw [← hself, String.ofList_toList]
    exact isName_of_mem_tokenize (by rw [hx]; exact List.mem_cons_self)
  · intro h
    exact ⟨String.ofList (Text.trim cs), by simpa using tokenize_name h endsName_nil⟩

namespace Term

variable {text : String} {vars : List String} {t : Term}

/-! ### What is read -/

/-- What is read is what the tokens write, with its names bound. -/
theorem parse_eq_ok_iff :
    Term.parse text vars = .ok t ↔
      ∃ raw, Grammar.WritesTerm (tokenize text.toList) raw ∧ raw.bindNames vars = t := by
  simp only [Term.parse, map_eq_ok, parseWith_eq_ok_iff, Grammar.reads_wholeTerm_iff,
    exists_and_left, exists_eq, and_true]

/-- A term that is read is a legible object. -/
theorem legible_of_parse (h : Term.parse text vars = .ok t) : t.IsObject ∧ t.Legible vars := by
  obtain ⟨raw, hwrites, rfl⟩ := parse_eq_ok_iff.mp h
  obtain ⟨f, args, rfl, hname, hargs⟩ :=
    Grammar.legible_args_of_writesTerm vars hwrites fun _ => isName_of_mem_tokenize
  exact (legible_bindNames_fn hname hargs).symm

/-- A legible object is read back from its printed form. -/
theorem parse_render (hobject : t.IsObject) (h : t.Legible vars) :
    Term.parse t.render vars = .ok t := by
  obtain ⟨ts, raw, hspells, hwrites, hbind⟩ := exists_writesTerm hobject h
  refine parse_eq_ok_iff.mpr ⟨raw, ?_, hbind⟩
  rwa [hspells.tokenize_eq]

/-! ### What is printed -/

/-- Whether a character may stand in a printed object. -/
def IsObjectChar (c : Char) : Prop :=
  Token.isNameChar c = true ∨ c ∈ ['(', ')', ',', ' ']

theorem isObjectChar_renderRest {args : List Term}
    (h : ∀ arg ∈ args, ∀ c ∈ arg.render.toList, IsObjectChar c) :
    ∀ c ∈ (renderRest args).toList, IsObjectChar c := by
  induction args with
  | nil => simp [renderRest]
  | cons arg args ih =>
    obtain ⟨harg, hargs⟩ := List.forall_mem_cons.mp h
    have hcomma : ∀ c ∈ ", ".toList, IsObjectChar c := by simp [IsObjectChar]
    simp only [renderRest, String.toList_append, List.forall_mem_append]
    exact ⟨⟨hcomma, harg⟩, ih hargs⟩

/-- A legible object is printed with name characters, parentheses, commas and spaces. -/
theorem isObjectChar_render (hobject : t.IsObject) (h : t.Legible vars) :
    ∀ c ∈ t.render.toList, IsObjectChar c := by
  induction hobject with
  | var x =>
    cases h with
    | var hname _ => exact fun c hc => .inl (hname.isNameChar hc)
  | @fn f args _ ih =>
    cases h with
    | fn hname _ hargs =>
      have hf : ∀ c ∈ f.toList, IsObjectChar c := fun c hc => .inl (hname.isNameChar hc)
      have hrender := fun arg harg => ih arg harg (hargs arg harg)
      cases args with
      | nil => exact hf
      | cons arg args =>
        obtain ⟨harg, hrest⟩ := List.forall_mem_cons.mp hrender
        have hleft : ∀ c ∈ "(".toList, IsObjectChar c := by simp [IsObjectChar]
        have hright : ∀ c ∈ ")".toList, IsObjectChar c := by simp [IsObjectChar]
        simp only [render, String.toList_append, List.forall_mem_append]
        exact ⟨⟨⟨⟨hf, hleft⟩, harg⟩, isObjectChar_renderRest hrest⟩, hright⟩

/-- A legible object is printed as a name, or from a name to a closing parenthesis. -/
theorem trimmed_render (hobject : t.IsObject) (h : t.Legible vars) :
    Text.Trimmed t.render.toList := by
  cases hobject with
  | var x =>
    cases h with
    | var hname _ => exact hname.trimmed
  | @fn f args _ =>
    cases h with
    | fn hname _ _ =>
      cases args with
      | nil => exact hname.trimmed
      | cons arg args =>
        obtain ⟨c, cs, hf⟩ := List.exists_cons_of_ne_nil hname.ne_nil
        have hfirst : Text.isBlank c = false := hname.trimmed.first c (by simp [hf])
        have hlast : Text.isBlank ')' = false := by decide
        rw [render, String.toList_append]
        constructor
        · simpa [hf] using hfirst
        · rw [show ")".toList = [')'] from rfl, List.getLast?_concat]
          simpa using hlast

end Term

end SignedTableaux
