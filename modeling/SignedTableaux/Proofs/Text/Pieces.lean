import Mathlib.Data.List.DropRight
import SignedTableaux.Text.Blank
import SignedTableaux.Text.Position

/-!
# Pieces of a text

How a text is trimmed, how it is cut at a character, and which bytes a piece of it takes up.

## Main definitions

* `Text.Trimmed` — no blank at either end
* `Text.Pieces` — what stands between the occurrences of a character
* `Span.ofPiece`, `Span.Cuts` — the bytes of a piece after some text, and a span that cuts out a
  piece

## Main results

* `Text.trimmed_trim`, `Text.trim_pad` — trimming takes away the blanks at both ends, and no more
* `Text.pieces_iff` — a text is cut into pieces in one way
* `Span.cuts_ofPiece` — the bytes of a piece are its characters, and start and end between
  characters
-/

namespace SignedTableaux

namespace Text

/-! ### Trimming -/

/-- Whether no blank is at either end. -/
structure Trimmed (cs : List Char) : Prop where
  first : ∀ c ∈ cs.head?, isBlank c = false
  last : ∀ c ∈ cs.getLast?, isBlank c = false

variable {c : Char} {cs before after : List Char}

theorem isBlank_eq_false_of_mem_head?_trimStart (h : c ∈ (trimStart cs).head?) :
    isBlank c = false := by
  have hhead := List.head?_dropWhile_not isBlank cs
  rwa [show (cs.dropWhile isBlank).head? = some c from h] at hhead

theorem trimmed_trim (cs : List Char) : Trimmed (trim cs) where
  first c hc := by
    obtain ⟨rest, hrest⟩ := List.rdropWhile_prefix isBlank (trimStart cs)
    have hmem : c ∈ (trimStart cs).head? := by
      rw [← hrest, List.head?_append,
        show (List.rdropWhile isBlank (trimStart cs)).head? = some c from hc]
      rfl
    exact isBlank_eq_false_of_mem_head?_trimStart hmem
  last c hc := by
    have hne : trim cs ≠ [] := by
      rintro hnil
      simp [hnil] at hc
    have hlast := List.rdropWhile_last_not isBlank (trimStart cs) hne
    rw [List.getLast?_eq_some_getLast hne] at hc
    obtain rfl := Option.some.inj hc
    exact Bool.eq_false_iff.mpr hlast

/-- Trimming takes away the blanks around a trimmed text. -/
theorem trim_pad (h : Trimmed cs) (hbefore : ∀ c ∈ before, isBlank c = true)
    (hafter : ∀ c ∈ after, isBlank c = true) : trim (before ++ cs ++ after) = cs := by
  have hself : ∀ ds : List Char, (∀ c ∈ ds.head?, isBlank c = false) →
      ds.dropWhile isBlank = ds := by
    intro ds hds
    cases ds with
    | nil => rfl
    | cons d ds => exact List.dropWhile_cons_of_neg (by simpa using hds)
  cases cs with
  | nil =>
    have hall : ∀ c ∈ before ++ [] ++ after, isBlank c = true := by
      simpa [or_imp, forall_and] using ⟨hbefore, hafter⟩
    rw [trim, trimStart, List.dropWhile_eq_nil_iff.mpr hall]
    rfl
  | cons c cs =>
    have hstart : trimStart (before ++ (c :: cs) ++ after) = (c :: cs) ++ after := by
      rw [trimStart, List.append_assoc, List.dropWhile_append_of_pos hbefore]
      exact hself _ (by simpa using h.first)
    rw [trim, hstart, trimEnd, List.reverse_append,
      List.dropWhile_append_of_pos (by simpa using hafter), hself, List.reverse_reverse]
    rw [List.head?_reverse]
    exact h.last

theorem trim_eq_nil_iff : trim cs = [] ↔ ∀ c ∈ cs, isBlank c = true := by
  constructor
  · intro h
    have hall : ∀ c ∈ trimStart cs, isBlank c = true := List.rdropWhile_eq_nil_iff.mp h
    have hstart : trimStart cs = [] := by
      rw [List.eq_nil_iff_forall_not_mem]
      intro c hc
      obtain ⟨d, ds, hds⟩ := List.exists_cons_of_ne_nil (List.ne_nil_of_mem hc)
      have hmem : d ∈ (trimStart cs).head? := by simp [hds]
      have hd := isBlank_eq_false_of_mem_head?_trimStart hmem
      rw [hall d (by simp [hds])] at hd
      cases hd
    exact List.dropWhile_eq_nil_iff.mp hstart
  · intro h
    rw [trim, trimStart, List.dropWhile_eq_nil_iff.mpr h]
    rfl

/-! ### Pieces -/

/-- Whether a text consists of `pieces` with the character `c` between them, and no piece has
`c`. -/
structure Pieces (c : Char) (text : List Char) (pieces : List (List Char)) : Prop where
  ne_nil : pieces ≠ []
  apart : ∀ piece ∈ pieces, c ∉ piece
  join : [c].intercalate pieces = text

theorem not_mem_of_mem_splitOn {piece : List Char} (h : piece ∈ cs.splitOn c) : c ∉ piece := by
  induction cs generalizing piece with
  | nil => simp_all
  | cons d cs ih =>
    rw [List.splitOn_cons_eq_if_modifyHead] at h
    split at h
    · rcases List.mem_cons.mp h with rfl | h
      · exact List.not_mem_nil
      · exact ih h
    · next hd =>
      obtain ⟨first, rest, hsplit⟩ := List.exists_cons_of_ne_nil (List.splitOn_ne_nil c cs)
      rw [hsplit, List.modifyHead_cons] at h
      rw [hsplit] at ih
      rcases List.mem_cons.mp h with rfl | h
      · rw [List.mem_cons, not_or]
        exact ⟨fun hcd => hd (by simp [hcd]), ih List.mem_cons_self⟩
      · exact ih (List.mem_cons_of_mem first h)

/-- A text is cut into pieces in one way. -/
theorem pieces_iff {pieces : List (List Char)} : Pieces c cs pieces ↔ cs.splitOn c = pieces := by
  constructor
  · rintro ⟨hne, hapart, rfl⟩
    exact List.splitOn_intercalate c hapart hne
  · rintro rfl
    exact ⟨List.splitOn_ne_nil c cs, fun _ => not_mem_of_mem_splitOn, List.intercalate_splitOn c⟩

/-- There is one piece more than the character occurs. -/
theorem Pieces.length_eq {pieces : List (List Char)} (h : Pieces c cs pieces) :
    pieces.length = cs.count c + 1 := by
  obtain ⟨hne, hapart, rfl⟩ := h
  induction pieces with
  | nil => exact absurd rfl hne
  | cons piece pieces ih =>
    obtain ⟨hpiece, hpieces⟩ := List.forall_mem_cons.mp hapart
    by_cases hnil : pieces = []
    · subst hnil
      simpa [List.intercalate_singleton] using List.count_eq_zero.mpr hpiece
    · rw [List.intercalate_cons_of_ne_nil hnil, List.count_append, List.count_append,
        List.count_eq_zero.mpr hpiece, List.length_cons, ih hnil hpieces]
      simp [Nat.add_comm]

/-- The text before a piece: the pieces before it, each with the character after it. -/
def textBefore (c : Char) (pieces : List (List Char)) : List Char :=
  pieces.flatMap (· ++ [c])

theorem exists_eq_textBefore_append (c : Char) (before : List (List Char)) (piece : List Char)
    (after : List (List Char)) :
    ∃ rest, [c].intercalate (before ++ piece :: after) = textBefore c before ++ piece ++ rest := by
  induction before with
  | nil =>
    cases after with
    | nil => exact ⟨[], by simp [textBefore]⟩
    | cons next after =>
      refine ⟨c :: [c].intercalate (next :: after), ?_⟩
      rw [List.nil_append, List.intercalate_cons_cons]
      simp [textBefore]
  | cons first before ih =>
    obtain ⟨rest, hrest⟩ := ih
    refine ⟨rest, ?_⟩
    rw [List.cons_append, List.intercalate_cons_of_ne_nil (by simp), hrest]
    simp [textBefore]

theorem Pieces.mem_of_mem {pieces : List (List Char)} {piece : List Char} {d : Char}
    (h : Pieces c cs pieces) (hpiece : piece ∈ pieces) (hd : d ∈ piece) : d ∈ cs := by
  obtain ⟨before, after, rfl⟩ := List.append_of_mem hpiece
  obtain ⟨rest, hrest⟩ := exists_eq_textBefore_append c before piece after
  rw [← h.join, hrest]
  simp [hd]

/-! ### Bytes -/

theorem byteLength_cons (c : Char) (cs : List Char) :
    byteLength (c :: cs) = c.utf8Size + byteLength cs :=
  rfl

@[simp] theorem byteLength_append (cs ds : List Char) :
    byteLength (cs ++ ds) = byteLength cs + byteLength ds := by
  induction cs with
  | nil => simp [byteLength]
  | cons c cs ih =>
    change c.utf8Size + byteLength (cs ++ ds) = c.utf8Size + byteLength cs + byteLength ds
    rw [ih, Nat.add_assoc]

theorem byteLength_eq (cs : List Char) : byteLength cs = (String.ofList cs).utf8ByteSize := by
  induction cs with
  | nil => rfl
  | cons c cs ih =>
    change c.utf8Size + byteLength cs = _
    rw [String.ofList_cons, String.utf8ByteSize_append, String.utf8ByteSize_singleton, ih]

theorem byteLength_toList (text : String) : byteLength text.toList = text.utf8ByteSize := by
  rw [byteLength_eq, String.ofList_toList]

end Text

namespace Span

/-- The bytes of a piece that stands after some text. -/
def ofPiece (before piece : List Char) : Span :=
  ⟨Text.byteLength before, Text.byteLength (before ++ piece)⟩

/-- Whether a span cuts a piece out of a text: it starts and ends between characters, and its bytes
are those of the piece. -/
structure Cuts (span : Span) (text piece : String) : Prop where
  start_valid : String.Pos.Raw.IsValid text ⟨span.start⟩
  stop_valid : String.Pos.Raw.IsValid text ⟨span.stop⟩
  bytes : text.toByteArray.extract span.start span.stop = piece.toByteArray

theorem cuts_ofPiece {text : String} {before piece after : List Char}
    (h : text.toList = before ++ piece ++ after) :
    (ofPiece before piece).Cuts text (String.ofList piece) := by
  have htext : text = String.ofList before ++ String.ofList piece ++ String.ofList after := by
    rw [← String.ofList_append, ← String.ofList_append, ← h, String.ofList_toList]
  have hstart : (ofPiece before piece).start = (String.ofList before).utf8ByteSize :=
    Text.byteLength_eq before
  have hstop : (ofPiece before piece).stop =
      (String.ofList before ++ String.ofList piece).utf8ByteSize := by
    rw [← String.ofList_append]
    exact Text.byteLength_eq (before ++ piece)
  refine ⟨?_, ?_, ?_⟩
  · rw [String.Pos.Raw.isValid_iff_exists_append, hstart]
    exact ⟨String.ofList before, String.ofList piece ++ String.ofList after,
      by rw [htext, String.append_assoc], rfl⟩
  · rw [String.Pos.Raw.isValid_iff_exists_append, hstop]
    exact ⟨_, String.ofList after, htext, rfl⟩
  · rw [hstart, hstop, htext, String.append_assoc, String.toByteArray_append,
      String.toByteArray_append,
      String.utf8ByteSize_append, ← String.size_toByteArray, ← String.size_toByteArray]
    rw [← Nat.add_zero (String.ofList before).toByteArray.size, Nat.add_assoc,
      ByteArray.extract_append_size_add, Nat.zero_add, ByteArray.extract_append_eq_left rfl]

end Span

end SignedTableaux
