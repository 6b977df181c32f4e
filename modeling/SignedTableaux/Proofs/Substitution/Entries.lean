import Mathlib.Data.List.Forall2
import SignedTableaux.Proofs.Substitution.Lookup
import SignedTableaux.Proofs.Term.Parse
import SignedTableaux.Substitution.Parse

/-!
# What a substitution text says

Which texts are substitutions, and what is reported of one that is not. The entries of a text are
its pieces between bars. An entry binds a name to a term, or some check of it is the first to fail;
the last check is that the entries before it do not bind the name. Reading goes on while entries
bind new names, and what it has read then is the substitution of their bindings. It stops at the
first entry at fault.

## Main definitions

* `Substitution.Binds`, `Substitution.BindsAll` — what an entry, or all entries, bind
* `Substitution.Fault` — the first check of an entry that fails

## Main results

* `Substitution.addEntries_of_binds`, `Substitution.addEntries_of_fault` — one step of the reading
* `Substitution.addEntries_append` — the reading of entries that bind different names
* `Substitution.bindsAll_or_fault` — all entries bind different names, or there is a first one at
  fault
* `Substitution.parse_cases` — what follows for a text that is not blank
* `Substitution.parse_spec` — what is read from a text, and why if nothing is
-/

namespace SignedTableaux.Substitution

/-! ### Entries -/

/-- Some characters without the blanks around them, as a text. -/
def trimmed (cs : List Char) : String :=
  String.ofList (Text.trim cs)

/-- Whether an entry binds a name to a term: there is one slash in it, with the name before and the
term after it. -/
inductive Binds (vars : List String) : List Char → String × Term → Prop
  | slash {left right : List Char} {t : Term} (hleft : '/' ∉ left) (hright : '/' ∉ right)
      (hname : IsName (trimmed left)) (hterm : Term.parse (trimmed right) vars = .ok t) :
      Binds vars (left ++ '/' :: right) (trimmed left, t)

/-- Whether the entries of a text bind different names, each to a term. -/
structure BindsAll (vars : List String) (pieces : List (List Char)) (bs : List (String × Term)) :
    Prop where
  each : List.Forall₂ (Binds vars) pieces bs
  distinct : (bs.map Prod.fst).Nodup

/-- What is at fault with an entry that takes up `span`, where the entries before it bind the names
`bound`. A check is made only if those above it here do not fail. -/
inductive Fault (vars bound : List String) (span : Span) : List Char → LanguageError → Prop
  | malformed {entry : List Char} (h : entry.count '/' ≠ 1) :
      Fault vars bound span entry (.malformedEntry (trimmed entry) span)
  | invalidName {left right : List Char} (hleft : '/' ∉ left) (hright : '/' ∉ right)
      (hname : ¬ IsName (trimmed left)) :
      Fault vars bound span (left ++ '/' :: right)
        (.invalidName (trimmed left) (trimmed (left ++ '/' :: right)) span)
  | invalidTerm {left right : List Char} {e : SyntaxError} (hleft : '/' ∉ left)
      (hright : '/' ∉ right)
      (hname : IsName (trimmed left)) (hterm : Term.parse (trimmed right) vars = .error e) :
      Fault vars bound span (left ++ '/' :: right)
        (.invalidTerm (trimmed (left ++ '/' :: right)) span e)
  | duplicate {entry : List Char} {x : String} {t : Term} (h : Binds vars entry (x, t))
      (hbound : x ∈ bound) : Fault vars bound span entry (.duplicateBinding x span)

variable {vars bound : List String} {span : Span} {entry left right : List Char} {b : String × Term}
  {e : LanguageError} {σ : Substitution} {rest : List Entry}

theorem Fault.span_eq (h : Fault vars bound span entry e) : e.span = span := by
  cases h <;> rfl

theorem Binds.slash_mem (h : Binds vars entry b) : '/' ∈ entry := by
  cases h
  simp

theorem splitOn_slash (hleft : '/' ∉ left) (hright : '/' ∉ right) :
    (left ++ '/' :: right).splitOn '/' = [left, right] := by
  refine Text.pieces_iff.mp ⟨by simp, by simpa using ⟨hleft, hright⟩, ?_⟩
  rw [List.intercalate_cons_cons, List.intercalate_singleton]
  simp

theorem exists_slash (h : entry.count '/' = 1) :
    ∃ left right, '/' ∉ left ∧ '/' ∉ right ∧ entry = left ++ '/' :: right := by
  have hpieces : Text.Pieces '/' entry (entry.splitOn '/') := Text.pieces_iff.mpr rfl
  have hlength := hpieces.length_eq
  rw [h] at hlength
  obtain ⟨left, right, hsplit⟩ := List.length_eq_two.mp hlength
  rw [hsplit] at hpieces
  obtain ⟨-, hapart, hjoin⟩ := hpieces
  rw [List.intercalate_cons_cons, List.intercalate_singleton] at hjoin
  exact ⟨left, right, hapart left (by simp), hapart right (by simp), by simpa using hjoin.symm⟩

/-- An entry binds a name that is not bound before, or some check of it fails. -/
theorem binds_or_fault (vars bound : List String) (span : Span) (entry : List Char) :
    (∃ b, Binds vars entry b ∧ b.1 ∉ bound) ∨ ∃ e, Fault vars bound span entry e := by
  by_cases hcount : entry.count '/' = 1
  · obtain ⟨left, right, hleft, hright, rfl⟩ := exists_slash hcount
    by_cases hname : IsName (trimmed left)
    · cases hterm : Term.parse (trimmed right) vars with
      | error e => exact .inr ⟨_, .invalidTerm hleft hright hname hterm⟩
      | ok t =>
        have hbinds := Binds.slash hleft hright hname hterm
        by_cases hbound : trimmed left ∈ bound
        · exact .inr ⟨_, .duplicate hbinds hbound⟩
        · exact .inl ⟨_, hbinds, hbound⟩
    · exact .inr ⟨_, .invalidName hleft hright hname⟩
  · exact .inr ⟨_, .malformed hcount⟩

/-! ### One step -/

theorem Entry.parse_of_binds (h : Binds vars entry b) : Entry.parse ⟨entry, span⟩ vars = .ok b := by
  cases h with
  | @slash left right t hleft hright hname hterm =>
    have hidentifier : isIdentifier (trimmed left) = true := (isIdentifier_trim_iff left).mpr hname
    simp only [trimmed] at hidentifier hterm ⊢
    simp [Entry.parse, splitOn_slash hleft hright, hidentifier, hterm]

/-- An entry that binds a new name adds its binding. -/
theorem addEntries_of_binds (h : Binds vars entry b) (hfresh : b.1 ∉ σ.domain) :
    addEntries vars σ (⟨entry, span⟩ :: rest) = addEntries vars (σ.insert b.1 b.2) rest := by
  simp [addEntries, Entry.parse_of_binds h, hfresh]

/-- An entry at fault is reported. -/
theorem addEntries_of_fault (h : Fault vars bound span entry e)
    (hbound : ∀ x ∈ bound, x ∈ σ.domain) :
    addEntries vars σ (⟨entry, span⟩ :: rest) = .error e := by
  cases h with
  | malformed hcount =>
    have hparse : Entry.parse ⟨entry, span⟩ vars =
        .error (.malformedEntry (trimmed entry) span) := by
      unfold Entry.parse
      split
      · next left right hsplit =>
        have hlength := (Text.pieces_iff.mpr hsplit).length_eq
        exact absurd (Nat.succ.inj hlength).symm hcount
      · rfl
    rw [addEntries, hparse]
  | @invalidName left right hleft hright hname =>
    have hidentifier : isIdentifier (trimmed left) = false :=
      Bool.eq_false_iff.mpr (mt (isIdentifier_trim_iff left).mp hname)
    simp only [trimmed] at hidentifier ⊢
    simp [addEntries, Entry.parse, Entry.text, splitOn_slash hleft hright, hidentifier]
  | @invalidTerm left right _ hleft hright hname hterm =>
    have hidentifier : isIdentifier (trimmed left) = true := (isIdentifier_trim_iff left).mpr hname
    simp only [trimmed] at hidentifier hterm ⊢
    simp [addEntries, Entry.parse, Entry.text, splitOn_slash hleft hright, hidentifier, hterm]
  | duplicate hbinds hmem => simp [addEntries, Entry.parse_of_binds hbinds, hbound _ hmem]

/-! ### A whole reading -/

variable {pieces before after : List (List Char)} {bs : List (String × Term)}

theorem entriesFrom_cons (read piece : List Char) (pieces : List (List Char)) :
    entriesFrom (Text.byteLength read) (piece :: pieces) =
      ⟨piece, Span.ofPiece read piece⟩ ::
        entriesFrom (Text.byteLength (read ++ (piece ++ ['|']))) pieces := by
  have hbar : Text.byteLength ['|'] = 1 := rfl
  simp [entriesFrom, Span.ofPiece, hbar, Nat.add_assoc]

/-- Entries that bind new names are read to the substitution of their bindings. -/
theorem addEntries_append (h : List.Forall₂ (Binds vars) before bs) {done : List (String × Term)}
    (hdistinct : ((done ++ bs).map Prod.fst).Nodup) (read : List Char) (pieces : List (List Char)) :
    addEntries vars (ofList done) (entriesFrom (Text.byteLength read) (before ++ pieces)) =
      addEntries vars (ofList (done ++ bs))
        (entriesFrom (Text.byteLength (read ++ Text.textBefore '|' before)) pieces) := by
  -- `done` is bound by what is `read`
  induction h generalizing done read with
  | nil => simp [Text.textBefore]
  | @cons entry b before bs hentry _ ih =>
    have hfresh : b.1 ∉ (ofList done).domain := by
      rw [mem_domain_ofList]
      rw [List.map_append, List.nodup_append] at hdistinct
      exact fun hmem => hdistinct.2.2 _ hmem _ (by simp) rfl
    have hassoc : done ++ b :: bs = done ++ [b] ++ bs := by simp
    rw [hassoc] at hdistinct ⊢
    rw [List.cons_append, entriesFrom_cons, addEntries_of_binds hentry hfresh, ← ofList_concat,
      ih hdistinct]
    simp [Text.textBefore]

theorem BindsAll.addEntries_append (h : BindsAll vars before bs) (pieces : List (List Char)) :
    addEntries vars ∅ (entriesFrom 0 (before ++ pieces)) =
      addEntries vars (ofList bs)
        (entriesFrom (Text.byteLength (Text.textBefore '|' before)) pieces) := by
  have hdistinct : (([] ++ bs).map Prod.fst).Nodup := h.distinct
  have hrun := Substitution.addEntries_append h.each hdistinct [] pieces
  rw [List.nil_append, List.nil_append] at hrun
  exact hrun

/-- All entries bind different names, or there is a first one at fault. -/
theorem bindsAll_or_fault (vars : List String) (pieces : List (List Char)) :
    (∃ bs, BindsAll vars pieces bs) ∨
      ∃ before entry after bs e, pieces = before ++ entry :: after ∧ BindsAll vars before bs ∧
        Fault vars (bs.map Prod.fst) (.ofPiece (Text.textBefore '|' before) entry) entry e := by
  induction pieces using List.reverseRecOn with
  | nil => exact .inl ⟨[], .nil, .nil⟩
  | append_singleton pieces piece ih =>
    rcases ih with ⟨bs, hbs⟩ | ⟨before, entry, after, bs, e, rfl, hbs, hfault⟩
    · rcases binds_or_fault vars (bs.map Prod.fst)
        (.ofPiece (Text.textBefore '|' pieces) piece) piece with
        ⟨b, hb, hfresh⟩ | ⟨e, hfault⟩
      · refine .inl ⟨bs ++ [b], List.rel_append hbs.each (.cons hb .nil), ?_⟩
        rw [List.map_append, List.map_singleton, ← List.concat_eq_append]
        exact hbs.distinct.concat hfresh
      · exact .inr ⟨pieces, piece, [], bs, e, rfl, hbs, hfault⟩
    · exact .inr ⟨before, entry, after ++ [piece], bs, e, by simp, hbs, hfault⟩

theorem parse_of_not_blank {text : String} (h : ∃ c ∈ text.toList, Text.isBlank c = false)
    (hpieces : Text.Pieces '|' text.toList pieces) :
    parse text vars = addEntries vars ∅ (entriesFrom 0 pieces) := by
  have hne : Text.trim text.toList ≠ [] := by
    rw [ne_eq, Text.trim_eq_nil_iff]
    intro hblank
    obtain ⟨c, hc, hnot⟩ := h
    simp [hblank c hc] at hnot
  rw [parse, if_neg hne, entries, Text.pieces_iff.mp hpieces]

theorem parse_of_bindsAll {text : String} (h : ∃ c ∈ text.toList, Text.isBlank c = false)
    (hpieces : Text.Pieces '|' text.toList pieces) (hbs : BindsAll vars pieces bs) :
    parse text vars = .ok (ofList bs) := by
  rw [parse_of_not_blank h hpieces, ← List.append_nil pieces, hbs.addEntries_append]
  rfl

theorem parse_of_fault {text : String} (h : ∃ c ∈ text.toList, Text.isBlank c = false)
    (hpieces : Text.Pieces '|' text.toList (before ++ entry :: after))
    (hbs : BindsAll vars before bs)
    (hfault : Fault vars (bs.map Prod.fst) (.ofPiece (Text.textBefore '|' before) entry) entry e) :
    parse text vars = .error e := by
  rw [parse_of_not_blank h hpieces, hbs.addEntries_append, entriesFrom_cons]
  exact addEntries_of_fault hfault fun x => mem_domain_ofList.mpr

/-- A text that is not blank is read to the substitution of its bindings, or its first entry at
fault is reported. -/
theorem parse_cases (vars : List String) {text : String}
    (h : ∃ c ∈ text.toList, Text.isBlank c = false) (hpieces : Text.Pieces '|' text.toList pieces) :
    (∃ bs, BindsAll vars pieces bs ∧ parse text vars = .ok (ofList bs)) ∨
      ∃ before entry after bs e, pieces = before ++ entry :: after ∧ BindsAll vars before bs ∧
        Fault vars (bs.map Prod.fst) (.ofPiece (Text.textBefore '|' before) entry) entry e ∧
          parse text vars = .error e := by
  rcases bindsAll_or_fault vars pieces with
    ⟨bs, hbs⟩ | ⟨before, entry, after, bs, e, rfl, hbs, hfault⟩
  · exact .inl ⟨bs, hbs, parse_of_bindsAll h hpieces hbs⟩
  · exact .inr ⟨before, entry, after, bs, e, rfl, hbs, hfault, parse_of_fault h hpieces hbs hfault⟩

/-- What is read from a text. From a blank text it is the empty substitution. Otherwise it is a
substitution just if all entries bind different names; it maps each name to the term of its entry,
and has as many bindings as there are entries. If nothing is read, the first entry at fault is
reported, by the first check of it that fails, and the reported bytes are those of the entry. -/
theorem parse_spec (text : String) (vars : List String) :
    ((∀ c ∈ text.toList, Text.isBlank c = true) → parse text vars = .ok ∅) ∧
      ((∃ c ∈ text.toList, Text.isBlank c = false) →
        ∃ pieces, Text.Pieces '|' text.toList pieces ∧
          (∀ σ, parse text vars = .ok σ ↔
            ∃ bs, BindsAll vars pieces bs ∧ (∀ b ∈ bs, σ.get? b.1 = some b.2) ∧
              σ.size = pieces.length) ∧
          ∀ e, parse text vars = .error e ↔
            ∃ before entry after bs, pieces = before ++ entry :: after ∧ BindsAll vars before bs ∧
              Fault vars (bs.map Prod.fst) (.ofPiece (Text.textBefore '|' before) entry) entry e ∧
                e.span.Cuts text (String.ofList entry)) := by
  refine ⟨fun hblank => if_pos (Text.trim_eq_nil_iff.mpr hblank), fun hnot => ?_⟩
  obtain ⟨pieces, hpieces⟩ : ∃ pieces, Text.Pieces '|' text.toList pieces :=
    ⟨_, Text.pieces_iff.mpr rfl⟩
  refine ⟨pieces, hpieces, fun σ => ⟨fun hread => ?_, ?_⟩, fun e => ⟨fun hread => ?_, ?_⟩⟩
  · rcases parse_cases vars hnot hpieces with ⟨bs, hbs, hok⟩ | ⟨_, _, _, _, e, _, _, _, herror⟩
    · rw [hok] at hread
      obtain ⟨hget, hsize⟩ := (ofList_eq_iff hbs.distinct).mp (Except.ok.inj hread)
      exact ⟨bs, hbs, hget, hsize.trans hbs.each.length_eq.symm⟩
    · rw [herror] at hread
      cases hread
  · rintro ⟨bs, hbs, hget, hsize⟩
    rw [parse_of_bindsAll hnot hpieces hbs,
      (ofList_eq_iff hbs.distinct).mpr ⟨hget, hsize.trans hbs.each.length_eq⟩]
  · rcases parse_cases vars hnot hpieces with
      ⟨bs, _, hok⟩ | ⟨before, entry, after, bs, e', rfl, hbs, hfault, herror⟩
    · rw [hok] at hread
      cases hread
    · rw [herror] at hread
      obtain rfl := Except.error.inj hread
      obtain ⟨rest, hrest⟩ := Text.exists_eq_textBefore_append '|' before entry after
      have hcuts := Span.cuts_ofPiece (hpieces.join.symm.trans hrest)
      exact ⟨before, entry, after, bs, rfl, hbs, hfault, by rwa [hfault.span_eq]⟩
  · rintro ⟨before, entry, after, bs, rfl, hbs, hfault, -⟩
    exact parse_of_fault hnot hpieces hbs hfault

/-- The second entry of `x/Y | é/b | y` is the first at fault, for its name. The bytes of it are
told, of which its first letter takes up two. -/
theorem parse_accentedName :
    (∃ c ∈ "x/Y | é/b | y".toList, Text.isBlank c = false) ∧
      parse "x/Y | é/b | y" ["Y"] = .error (.invalidName "é" "é/b" ⟨5, 11⟩) ∧
        Span.Cuts ⟨5, 11⟩ "x/Y | é/b | y" " é/b " := by
  have hnot : ∃ c ∈ "x/Y | é/b | y".toList, Text.isBlank c = false := ⟨'x', by decide, by decide⟩
  have hread : parse "x/Y | é/b | y" ["Y"] = .error (.invalidName "é" "é/b" ⟨5, 11⟩) := by
    decide +kernel
  obtain ⟨pieces, hpieces, -, herror⟩ := (parse_spec "x/Y | é/b | y" ["Y"]).2 hnot
  obtain ⟨before, entry, after, bs, rfl, -, hfault, hcuts⟩ := (herror _).mp hread
  have hsplit : ["x/Y ".toList, " é/b ".toList, " y".toList] = before ++ entry :: after :=
    (by decide +kernel : _ = "x/Y | é/b | y".toList.splitOn '|').trans (Text.pieces_iff.mp hpieces)
  have hentry : entry ∈ ["x/Y ".toList, " é/b ".toList, " y".toList] := by
    rw [hsplit]
    exact List.mem_append_right before List.mem_cons_self
  have htrimmed : trimmed entry = "é/b" := by
    generalize he : LanguageError.invalidName "é" "é/b" ⟨5, 11⟩ = e at hfault
    cases hfault with
    | invalidName _ _ _ => exact (LanguageError.invalidName.inj he).2.1.symm
    | malformed _ | invalidTerm _ _ _ _ | duplicate _ _ => cases he
  refine ⟨hnot, hread, ?_⟩
  simp only [List.mem_cons, List.not_mem_nil, or_false] at hentry
  rcases hentry with rfl | rfl | rfl
  · exact absurd htrimmed (by decide +kernel)
  · exact hcuts
  · exact absurd htrimmed (by decide +kernel)

end SignedTableaux.Substitution
