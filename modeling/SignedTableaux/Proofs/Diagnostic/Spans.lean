import SignedTableaux.Proofs.Substitution.Entries

/-!
# The bytes that are marked

A text that is refused is shown with the bytes in question marked, as far as they lie in it. They
start between two characters or at an end of the text, since every lexeme does. They need not end
so. An entry of a substitution is marked as a whole, but of a place that cannot be read one byte is
marked, whatever the character there: if it takes up more bytes than one, the mark ends inside it.

## Main definitions

* `Text.IsBoundary` — an offset between two characters, or at an end
* `Refused` — the causes for which a text is refused
* `LanguageError.AtWideChar` — the text cannot be read from a character of several bytes on

## Main results

* `Text.isBoundary_succ_iff` — when a character ends one byte further on
* `isBoundary_start_of_mem_scan` — every lexeme starts between two characters
* `isBoundary_offset_of_parseWith` — so does the place of a syntax error
* `Refused.span_cases` — what is marked
* `isValid_stop_clamp_iff` — when the marked bytes are characters
-/

namespace SignedTableaux

namespace Text

variable {text before after : List Char} {c : Char} {offset : Nat}

/-- Whether a byte offset lies between two characters of a text, or at an end of it. -/
def IsBoundary (text : List Char) (offset : Nat) : Prop :=
  ∃ before after, text = before ++ after ∧ byteLength before = offset

theorem isBoundary_zero (text : List Char) : IsBoundary text 0 :=
  ⟨[], text, rfl, rfl⟩

theorem isBoundary_byteLength (text : List Char) : IsBoundary text (byteLength text) :=
  ⟨text, [], by simp, rfl⟩

theorem IsBoundary.append_left (h : IsBoundary after offset) (before : List Char) :
    IsBoundary (before ++ after) (byteLength before + offset) := by
  obtain ⟨cs, ds, rfl, rfl⟩ := h
  exact ⟨before ++ cs, ds, by simp, by simp⟩

theorem IsBoundary.le_byteLength (h : IsBoundary text offset) : offset ≤ byteLength text := by
  obtain ⟨before, after, rfl, rfl⟩ := h
  simp

theorem isBoundary_iff_isValid {text : String} :
    IsBoundary text.toList offset ↔ String.Pos.Raw.IsValid text ⟨offset⟩ := by
  rw [String.Pos.Raw.isValid_iff_exists_append]
  constructor
  · rintro ⟨before, after, htext, rfl⟩
    refine ⟨String.ofList before, String.ofList after, ?_, ?_⟩
    · rw [← String.ofList_append, ← htext, String.ofList_toList]
    · rw [byteLength_eq]
      rfl
  · rintro ⟨before, after, rfl, hoffset⟩
    refine ⟨before.toList, after.toList, String.toList_append, ?_⟩
    rw [byteLength_toList]
    exact (congrArg String.Pos.Raw.byteIdx hoffset).symm

/-- One byte after a boundary is another one just if the character between them takes up one
byte. -/
theorem isBoundary_succ_iff (h : text = before ++ c :: after) :
    IsBoundary text (byteLength before + 1) ↔ c.utf8Size = 1 := by
  constructor
  · rintro ⟨cs, ds, htext, hlength⟩
    have hpos := c.utf8Size_pos
    rcases List.append_eq_append_iff.mp (h.symm.trans htext) with ⟨es, rfl, hes⟩ | ⟨es, rfl, -⟩
    · rw [byteLength_append, Nat.add_left_cancel_iff] at hlength
      cases es with
      | nil => exact absurd hlength (by decide)
      | cons d es =>
        obtain ⟨rfl, -⟩ := List.cons.inj hes
        rw [byteLength_cons] at hlength
        omega
    · rw [byteLength_append] at hlength
      omega
  · intro hsize
    have hlength : byteLength [c] = 1 := hsize
    exact ⟨before ++ [c], after, by simpa using h, by rw [byteLength_append, hlength]⟩

end Text

/-! ### Where lexemes start -/

theorem utf8Size_of_isNameChar {c : Char} (h : Token.isNameChar c = true) : c.utf8Size = 1 :=
  Char.utf8Size_eq_one_iff.mpr
    (UInt32.le_iff_toNat_le.mpr (Nat.le_of_lt_succ (Text.lt_of_isNameChar h)))

theorem utf8Size_of_isSeparator {c : Char} (h : Token.isSeparator c = true) : c.utf8Size = 1 := by
  have hc : c = ' ' ∨ c = '\t' ∨ c = '\r' ∨ c = '\n' := by simpa using isSeparator_iff.mp h
  rcases hc with rfl | rfl | rfl | rfl <;> rfl

theorem byteLength_of_isNameChar {word : List Char} (h : ∀ c ∈ word, Token.isNameChar c = true) :
    Text.byteLength word = word.length := by
  induction word with
  | nil => rfl
  | cons c word ih =>
    obtain ⟨hc, hword⟩ := List.forall_mem_cons.mp h
    rw [Text.byteLength_cons, utf8Size_of_isNameChar hc, ih hword, List.length_cons, Nat.add_comm]

variable {start : Nat} {word cs : List Char} {lexeme : Lexeme}

theorem exists_isBoundary_of_mem_wordLexeme (h : lexeme ∈ wordLexeme start word) :
    ∃ k, lexeme.start = start + k ∧ Text.IsBoundary (word ++ cs) k := by
  unfold wordLexeme at h
  split at h
  · cases h
  · rw [List.mem_singleton.mp h]
    exact ⟨0, rfl, Text.isBoundary_zero _⟩

theorem isBoundary_after_word (h : ∀ c ∈ word, Token.isNameChar c = true) (cs : List Char) :
    Text.IsBoundary (word ++ cs) word.length :=
  ⟨word, cs, rfl, byteLength_of_isNameChar h⟩

/-- A boundary of what follows a word and a sign, seen from the start of the word. -/
theorem exists_isBoundary_after (hword : ∀ c ∈ word, Token.isNameChar c = true) (sign : List Char)
    {bytes : Nat} (hsign : Text.byteLength sign = bytes)
    (h : ∃ k, lexeme.start = start + word.length + bytes + k ∧ Text.IsBoundary cs k) :
    ∃ k, lexeme.start = start + k ∧ Text.IsBoundary (word ++ (sign ++ cs)) k := by
  obtain ⟨k, hk, hboundary⟩ := h
  have hword := byteLength_of_isNameChar hword
  refine ⟨word.length + (bytes + k), by rw [hk]; omega, ?_⟩
  rw [← hword, ← hsign]
  exact (hboundary.append_left sign).append_left word

/-- Every lexeme starts at a boundary. -/
theorem exists_isBoundary_of_mem_scanFrom (hword : ∀ c ∈ word, Token.isNameChar c = true)
    (h : lexeme ∈ scanFrom start word cs) :
    ∃ k, lexeme.start = start + k ∧ Text.IsBoundary (word ++ cs) k := by
  induction start, word, cs using scanFrom_induction with
  | nil start word => exact exists_isBoundary_of_mem_wordLexeme (by rwa [scanFrom] at h)
  | nameChar start word c cs hc ih =>
    rw [scanFrom_nameChar hc] at h
    rw [List.append_cons]
    exact ih (by simpa [or_imp, forall_and] using ⟨hword, hc⟩) h
  | separator start word c cs hname hc ih =>
    rw [scanFrom_separator hname hc, List.mem_append] at h
    rcases h with h | h
    · exact exists_isBoundary_of_mem_wordLexeme h
    · exact exists_isBoundary_after hword [c] (utf8Size_of_isSeparator hc) (ih (by simp) h)
  | arrow start word cs ih =>
    rw [scanFrom_arrow, List.mem_append, List.mem_cons] at h
    rcases h with h | rfl | h
    · exact exists_isBoundary_of_mem_wordLexeme h
    · exact ⟨word.length, rfl, isBoundary_after_word hword _⟩
    · exact exists_isBoundary_after hword ['-', '>'] rfl (ih (by simp) h)
  | sign start word c cs hname hc harrow ih =>
    rw [scanFrom_sign hname hc harrow, List.mem_append, List.mem_cons] at h
    rcases h with h | rfl | h
    · exact exists_isBoundary_of_mem_wordLexeme h
    · exact ⟨word.length, rfl, isBoundary_after_word hword _⟩
    · exact exists_isBoundary_after hword [c] rfl (ih (by simp) h)

theorem isBoundary_start_of_mem_scan {text : String} (h : lexeme ∈ scan text) :
    Text.IsBoundary text.toList lexeme.start := by
  obtain ⟨k, hk, hboundary⟩ := exists_isBoundary_of_mem_scanFrom (by simp) h
  rwa [hk, Nat.zero_add]

/-! ### Where reading stops -/

variable {text : String} {vars : List String} {e : LanguageError}

theorem isBoundary_offsetWithLeft (text : String) (left : Nat) :
    Text.IsBoundary text.toList (offsetWithLeft text (scan text) left) := by
  unfold offsetWithLeft
  split
  · rw [← Text.byteLength_toList]
    exact Text.isBoundary_byteLength text.toList
  · next lexeme rest hdrop =>
    have hmem : lexeme ∈ (scan text).drop ((scan text).length - left) := by simp [hdrop]
    exact isBoundary_start_of_mem_scan (List.mem_of_mem_drop hmem)

theorem isBoundary_offset_of_parseWith {α : Type} {p : Parser α} {e : SyntaxError}
    (h : parseWith p text = .error e) : Text.IsBoundary text.toList e.offset := by
  unfold parseWith at h
  rcases hresult : p ((scan text).map Lexeme.token) with ⟨_ | ⟨a, rest⟩, misses⟩
  · obtain rfl : syntaxErrorOf text (scan text) misses = e := by simpa [hresult] using h
    unfold syntaxErrorOf
    split
    · exact Text.isBoundary_zero _
    · exact isBoundary_offsetWithLeft text _
  · simp [hresult] at h

/-! ### What is marked -/

/-- Whether a text is refused for the cause `e` when it is read as a formula, as a term or as a
substitution, where the names in `vars` are variables. -/
inductive Refused (text : String) (vars : List String) : LanguageError → Prop
  | formula {e : SyntaxError} (h : Formula.parse text = .error e) :
      Refused text vars (.unreadable e)
  | term {e : SyntaxError} (h : Term.parse text vars = .error e) : Refused text vars (.unreadable e)
  | substitution {e : LanguageError} (h : Substitution.parse text vars = .error e) :
      Refused text vars e

/-- Whether a text cannot be read on from a character of it that takes up more than one byte. -/
def LanguageError.AtWideChar (e : LanguageError) (text : String) : Prop :=
  ∃ e' before c after, e = .unreadable e' ∧ text.toList = before ++ c :: after ∧
    Text.byteLength before = e'.offset ∧ 1 < c.utf8Size

/-- The entry of a substitution that is at fault takes up the reported bytes. -/
theorem Substitution.exists_piece_of_parse_eq_error (h : Substitution.parse text vars = .error e) :
    (∀ e', e ≠ .unreadable e') ∧ ∃ before entry after, text.toList = before ++ entry ++ after ∧
      e.span = .ofPiece before entry := by
  by_cases hblank : ∀ c ∈ text.toList, Text.isBlank c = true
  · rw [Substitution.parse, if_pos (Text.trim_eq_nil_iff.mpr hblank)] at h
    cases h
  · have hnot : ∃ c ∈ text.toList, Text.isBlank c = false := by simpa using hblank
    have hpieces : Text.Pieces '|' text.toList (text.toList.splitOn '|') := Text.pieces_iff.mpr rfl
    rcases Substitution.parse_cases vars hnot hpieces with
      ⟨bs, _, hok⟩ | ⟨before, entry, after, bs, e', hsplit, _, hfault, herror⟩
    · rw [hok] at h
      cases h
    · obtain rfl : e' = e := Except.error.inj (herror.symm.trans h)
      obtain ⟨rest, hrest⟩ := Text.exists_eq_textBefore_append '|' before entry after
      rw [hsplit] at hpieces
      refine ⟨fun e' heq => ?_, _, entry, rest, hpieces.join.symm.trans hrest, hfault.span_eq⟩
      rw [heq] at hfault
      cases hfault

/-- What is reported is the place where reading stops, or the bytes of a piece of the text. -/
theorem Refused.span_cases (h : Refused text vars e) :
    (∃ e', e = .unreadable e' ∧ Text.IsBoundary text.toList e'.offset) ∨
      (∀ e', e ≠ .unreadable e') ∧ ∃ before piece after, text.toList = before ++ piece ++ after ∧
        e.span = .ofPiece before piece := by
  cases h with
  | formula h => exact .inl ⟨_, rfl, isBoundary_offset_of_parseWith (map_eq_error.mp h)⟩
  | term h => exact .inl ⟨_, rfl, isBoundary_offset_of_parseWith (map_eq_error.mp h)⟩
  | substitution h => exact .inr (Substitution.exists_piece_of_parse_eq_error h)

theorem Span.clamp_eq_self {span : Span} {bytes : Nat} (h : span.start ≤ span.stop)
    (hstop : span.stop ≤ bytes) : span.clamp bytes = span := by
  simp [clamp, Nat.min_eq_left hstop, Nat.min_eq_left h]

theorem LanguageError.not_atWideChar (h : ∀ e', e ≠ .unreadable e') : ¬ e.AtWideChar text := by
  rintro ⟨e', before, c, after, heq, -⟩
  exact h e' heq

/-- The end of the text is a boundary, so only a character can make the mark end between
boundaries. -/
theorem LanguageError.atWideChar_iff {e : SyntaxError} (h : Text.IsBoundary text.toList e.offset) :
    (unreadable e).AtWideChar text ↔
      ¬ Text.IsBoundary text.toList (min (e.offset + 1) (Text.byteLength text.toList)) := by
  constructor
  · rintro ⟨e', before, c, after, heq, htext, hoffset, hwide⟩
    obtain rfl := unreadable.inj heq
    have hinside : e.offset + 1 ≤ Text.byteLength text.toList := by
      rw [htext, Text.byteLength_append, Text.byteLength_cons]
      omega
    rw [Nat.min_eq_left hinside, ← hoffset, Text.isBoundary_succ_iff htext]
    exact Nat.ne_of_gt hwide
  · intro hnot
    obtain ⟨before, after, htext, hoffset⟩ := h
    cases after with
    | nil =>
      rw [List.append_nil] at htext
      rw [htext, hoffset, Nat.min_eq_right (Nat.le_succ _), ← hoffset] at hnot
      exact absurd (Text.isBoundary_byteLength before) hnot
    | cons c after =>
      refine ⟨e, before, c, after, rfl, htext, hoffset, ?_⟩
      by_contra hnarrow
      have hsize : c.utf8Size = 1 := Nat.le_antisymm (Nat.not_lt.mp hnarrow) c.utf8Size_pos
      have hnext := (Text.isBoundary_succ_iff htext).mpr hsize
      rw [hoffset] at hnext
      exact hnot (by rwa [Nat.min_eq_left hnext.le_byteLength])

/-- The marked bytes are in order, lie in the text and start at a boundary. They end at one just if
the text is not refused at a character of several bytes. -/
theorem isValid_stop_clamp_iff (h : Refused text vars e) :
    let range := e.span.clamp (Text.byteLength text.toList)
    range.start ≤ range.stop ∧ range.stop ≤ text.utf8ByteSize ∧
      String.Pos.Raw.IsValid text ⟨range.start⟩ ∧
      (String.Pos.Raw.IsValid text ⟨range.stop⟩ ↔ ¬ e.AtWideChar text) := by
  intro range
  rw [← Text.byteLength_toList]
  refine ⟨Nat.min_le_right _ _, Nat.min_le_right _ _, ?_⟩
  rw [← Text.isBoundary_iff_isValid, ← Text.isBoundary_iff_isValid]
  rcases h.span_cases with ⟨e', rfl, hoffset⟩ | ⟨hne, before, piece, after, htext, hspan⟩
  · have hstart : range.start = e'.offset :=
      Nat.min_eq_left (Nat.le_min.mpr ⟨Nat.le_succ _, hoffset.le_byteLength⟩)
    refine ⟨hstart ▸ hoffset, ?_⟩
    rw [LanguageError.atWideChar_iff hoffset, not_not]
    rfl
  · have hstart : Text.IsBoundary text.toList e.span.start :=
      hspan ▸ ⟨before, piece ++ after, by simpa using htext, rfl⟩
    have hstop : Text.IsBoundary text.toList e.span.stop :=
      hspan ▸ ⟨before ++ piece, after, htext, rfl⟩
    have hle : e.span.start ≤ e.span.stop := by simp [hspan, Span.ofPiece]
    have hrange : range = e.span := Span.clamp_eq_self hle hstop.le_byteLength
    rw [hrange]
    exact ⟨hstart, iff_of_true hstop (LanguageError.not_atWideChar hne)⟩

/-- `P ∧ ∧ Q` is refused at its second sign, which takes up three bytes, from offset 6 on. Only the
first of them is marked. -/
theorem isValid_stop_clamp_doubledSign :
    let e := LanguageError.unreadable ⟨"P ∧ ∧ Q", 6, [.identifier, .negation, .quantified]⟩
    Refused "P ∧ ∧ Q" [] e ∧ e.span.clamp (Text.byteLength "P ∧ ∧ Q".toList) = ⟨6, 7⟩ ∧
      ¬ String.Pos.Raw.IsValid "P ∧ ∧ Q" ⟨7⟩ := by
  intro e
  have hrefused : Refused "P ∧ ∧ Q" [] e := .formula (by decide +kernel)
  have hrange : e.span.clamp (Text.byteLength "P ∧ ∧ Q".toList) = ⟨6, 7⟩ := by decide +kernel
  have hwide : e.AtWideChar "P ∧ ∧ Q" :=
    ⟨_, "P ∧ ".toList, '∧', " Q".toList, rfl, by decide +kernel, by decide +kernel,
      by decide +kernel⟩
  obtain ⟨-, -, -, hstop⟩ := isValid_stop_clamp_iff hrefused
  rw [hrange] at hstop
  exact ⟨hrefused, hrange, fun hvalid => hstop.mp hvalid hwide⟩

end SignedTableaux
