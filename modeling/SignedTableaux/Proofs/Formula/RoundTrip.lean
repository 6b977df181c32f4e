import SignedTableaux.Proofs.Formula.Legible

/-!
# Printed formulas are read back

The printed form of a legible formula is cut into tokens that write it, so reading it gives the
formula again. Parentheses stand where the grammar asks for them: an operand without them binds at
least as tightly as its place asks, and a quantified formula is an operand in parentheses only.

## Main definitions

* `Spells` — a text that is cut into given tokens
* `Term.enclosed` — the tokens of an operand, in parentheses where its place asks for them
* `Term.WrittenAs` — tokens that write a formula in every place where it stands without parentheses

## Main results

* `Term.exists_writesTerm` — the printed form of a legible object writes it
* `Term.exists_writes` — the printed form of a legible formula writes it
* `Formula.parse_render` — legible formulas are read back
* `Formula.round_trip` — which legible terms are read back, and what is read from any text
-/

namespace SignedTableaux

/-! ### Printed signs -/

section Signs

variable {cs : List Char}

/-- A text that starts with no name character ends a name before it. -/
theorem endsName_text (text : String)
    (h : text.toList.head?.any (fun c => !Token.isNameChar c) = true) :
    EndsName (text.toList ++ cs) := by
  obtain ⟨c, hc, hname⟩ := (Option.any_eq_true ..).mp h
  obtain ⟨rest, hrest⟩ := List.head?_eq_some_iff.mp hc
  rw [hrest]
  exact endsName_cons (by simpa using hname)

theorem tokenize_mark (c : Char) (h : Token.isNameChar c = false)
    (hc : Token.isSeparator c = false) (hne : c ≠ '-') :
    tokenize (c :: cs) = .ofSign c :: tokenize cs :=
  tokenize_sign h hc (by simp [hne])

theorem tokenize_leftParen : tokenize ("(".toList ++ cs) = .leftParen :: tokenize cs :=
  tokenize_mark '(' (by decide) (by decide) (by decide)

theorem tokenize_rightParen : tokenize (")".toList ++ cs) = .rightParen :: tokenize cs :=
  tokenize_mark ')' (by decide) (by decide) (by decide)

theorem tokenize_not : tokenize ("~".toList ++ cs) = .not :: tokenize cs :=
  tokenize_mark '~' (by decide) (by decide) (by decide)

theorem tokenize_space : tokenize (" ".toList ++ cs) = tokenize cs :=
  tokenize_separator (by decide) (by decide)

theorem tokenize_comma : tokenize (", ".toList ++ cs) = .comma :: tokenize cs :=
  (tokenize_mark ',' (by decide) (by decide) (by decide)).trans
    (congrArg (Token.comma :: ·) tokenize_space)

theorem tokenize_dot : tokenize (". ".toList ++ cs) = .dot :: tokenize cs :=
  (tokenize_mark '.' (by decide) (by decide) (by decide)).trans
    (congrArg (Token.dot :: ·) tokenize_space)

theorem tokenize_connective (op : Connective) :
    tokenize (op.sign.toList ++ cs) = .connective op :: tokenize cs := by
  cases op with
  | and => exact tokenize_mark '&' (by decide) (by decide) (by decide)
  | or => exact tokenize_mark '|' (by decide) (by decide) (by decide)
  | implies => exact tokenize_arrow

theorem tokenize_quantifier (q : Quantifier) (h : EndsName cs) :
    tokenize (q.keyword.toList ++ cs) = .quantifier q :: tokenize cs := by
  cases q with
  | universal => exact tokenize_word (by decide) (List.all_eq_true.mp (by decide)) h
  | existential => exact tokenize_word (by decide) (List.all_eq_true.mp (by decide)) h

end Signs

/-- Whether a text is cut into the given tokens wherever no name character follows it. -/
def Spells (text : String) (ts : List Token) : Prop :=
  ∀ cs, EndsName cs → tokenize (text.toList ++ cs) = ts ++ tokenize cs

theorem Spells.tokenize_eq {text : String} {ts : List Token} (h : Spells text ts) :
    tokenize text.toList = ts := by
  simpa using h [] endsName_nil

namespace Term

open SignedTableaux.Grammar

variable {scope : List String} {t : Term}

/-! ### Objects -/

theorem spells_name {x : String} (h : IsName x) : Spells x [.name x] :=
  fun _ hcs => tokenize_name h hcs

/-- The printed arguments after the first, and the closing parenthesis. -/
theorem endsName_renderRest (args : List Term) (cs : List Char) (h : EndsName cs) :
    EndsName ((renderRest args).toList ++ cs) := by
  cases args with
  | nil => simpa [renderRest] using h
  | cons arg args =>
    simp only [renderRest, String.toList_append, List.append_assoc]
    exact endsName_text ", " (by decide)

theorem exists_items {args : List Term}
    (h : ∀ arg ∈ args, ∃ ts raw, Spells arg.render ts ∧ WritesTerm ts raw ∧
      raw.bindNames scope = arg) :
    ∃ items : List (List Token × Term), (∀ item ∈ items, WritesTerm item.1 item.2) ∧
      Spells (renderRest args) ((items.map Prod.fst).flatMap (.comma :: ·)) ∧
        items.map (fun item => item.2.bindNames scope) = args := by
  induction args with
  | nil => exact ⟨[], by simp, fun cs _ => by simp [renderRest], rfl⟩
  | cons arg args ih =>
    obtain ⟨harg, hargs⟩ := List.forall_mem_cons.mp h
    obtain ⟨ts, raw, hspells, hwrites, hbind⟩ := harg
    obtain ⟨items, hitems, hrest, hbinds⟩ := ih hargs
    refine ⟨(ts, raw) :: items, List.forall_mem_cons.mpr ⟨hwrites, hitems⟩, fun cs hcs => ?_, ?_⟩
    · simp only [renderRest, String.toList_append, List.append_assoc]
      rw [tokenize_comma, hspells _ (endsName_renderRest args cs hcs), hrest cs hcs]
      simp
    · rw [List.map_cons, hbind, hbinds]

/-- Arguments that write their terms, after a name. -/
theorem exists_application {f : String} (hname : IsName f) (k : SymbolKind) {args : List Term}
    (h : ∀ arg ∈ args, ∃ ts raw, Spells arg.render ts ∧ WritesTerm ts raw ∧
      raw.bindNames scope = arg) :
    ∃ ts raws, Spells (app k f args).render ts ∧ WritesTerm ts (.fn f raws) ∧
      raws.map (bindNames scope) = args := by
  cases args with
  | nil => exact ⟨[.name f], [], spells_name hname, .bare f, rfl⟩
  | cons arg args =>
    obtain ⟨harg, hargs⟩ := List.forall_mem_cons.mp h
    obtain ⟨ts, raw, hspells, hwrites, hbind⟩ := harg
    obtain ⟨items, hitems, hrest, hbinds⟩ := exists_items hargs
    refine ⟨_, _, fun cs hcs => ?_, .applied f ((ts, raw) :: items)
      (List.forall_mem_cons.mpr ⟨hwrites, hitems⟩), ?_⟩
    · simp only [render, String.toList_append, List.append_assoc]
      rw [tokenize_name hname (endsName_text "(" (by decide)), tokenize_leftParen,
        hspells _ (endsName_renderRest args _ (endsName_text ")" (by decide))),
        hrest _ (endsName_text ")" (by decide)), tokenize_rightParen]
      simp [argumentTokens, intercalate_cons]
    · rw [List.map_map, List.map_cons]
      exact congrArg₂ List.cons hbind hbinds

/-- The printed form of a legible object writes it. -/
theorem exists_writesTerm (hobject : t.IsObject) (h : Legible scope t) :
    ∃ ts raw, Spells t.render ts ∧ WritesTerm ts raw ∧ raw.bindNames scope = t := by
  induction hobject with
  | var x =>
    cases h with
    | var hname hbound =>
      exact ⟨[.name x], .fn x [], spells_name hname, .bare x, by simp [bindNames_app, hbound]⟩
  | fn f _ ih =>
    cases h with
    | fn hname hconstant hargs =>
      obtain ⟨ts, raws, hspells, hwrites, hbinds⟩ :=
        exists_application hname .function fun arg harg => ih arg harg (hargs arg harg)
      refine ⟨ts, .fn f raws, hspells, hwrites, ?_⟩
      have hfree : ¬ (SymbolKind.function = .function ∧ raws = [] ∧ f ∈ scope) := by
        rintro ⟨-, rfl, hmem⟩
        exact hconstant (by simpa using hbinds.symm) hmem
      rw [bindNames_app, if_neg hfree, hbinds]

/-! ### Formulas -/

/-- The tokens of an operand, in parentheses if its term binds more weakly than its place asks
for. -/
def enclosed (place : Nat) (t : Term) (ts : List Token) : List Token :=
  if t.precedence < place then .leftParen :: (ts ++ [.rightParen]) else ts

theorem spells_enclose {ts : List Token} (place : Nat) (h : Spells t.render ts) :
    Spells (t.enclose place t.render) (t.enclosed place ts) := by
  unfold enclose enclosed
  split
  · intro cs _
    simp only [String.toList_append, List.append_assoc]
    rw [tokenize_leftParen, h _ (endsName_text ")" (by decide)), tokenize_rightParen]
    simp
  · exact h

theorem precedence_le_four (t : Term) : t.precedence ≤ 4 := by
  cases t with
  | app _ _ _ | var _ | not _ | quantified _ _ _ => simp [precedence]
  | binary op _ _ => cases op <;> simp [precedence, Connective.precedence]

/-- Whether tokens write a printed formula, as the body of a quantifier and, without parentheses, as
an operand in every place that asks for no more than its precedence. -/
structure WrittenAs (t : Term) (ts : List Token) (raw : Term) : Prop where
  body : Writes 1 true ts raw
  operand : ∀ level last, 0 < level → level ≤ t.precedence → Writes level last ts raw

namespace WrittenAs

variable {ts : List Token} {raw : Term}

theorem of_writes (hpos : 0 < t.precedence) (h : ∀ last, Writes t.precedence last ts raw) :
    t.WrittenAs ts raw where
  body := (h true).mono hpos (precedence_le_four t)
  operand := fun _ last _ hlevel => (h last).mono hlevel (precedence_le_four t)

/-- In parentheses where they are needed, an operand is written at the level of its place. -/
theorem enclosed (h : t.WrittenAs ts raw) {place : Nat} (last : Bool) (hpos : 0 < place)
    (hplace : place ≤ 4) : Writes place last (t.enclosed place ts) raw := by
  unfold Term.enclosed
  split
  · exact h.body.parenthesized.mono hplace (Nat.le_refl 4)
  · next hprecedence => exact h.operand place last hpos (Nat.not_lt.mp hprecedence)

end WrittenAs

/-- The printed form of a legible formula writes it. -/
theorem exists_writes (h : Legible scope t) (hformula : t.isFormula = true) :
    ∃ ts raw, Spells t.render ts ∧ raw.bindNames scope = t ∧ t.WrittenAs ts raw := by
  induction h with
  | @pred scope p args hname hobjects hargs _ =>
    obtain ⟨ts, raws, hspells, hwrites, hbinds⟩ := exists_application hname .predicate
      fun arg harg => exists_writesTerm (hobjects arg harg) (hargs arg harg)
    refine ⟨ts, .pred p raws, hspells, by rw [bindNames_pred, hbinds], ?_⟩
    exact .of_writes (Nat.succ_pos 3) fun last => .atom hwrites
  | fn _ _ _ _ => cases hformula
  | var _ _ => cases hformula
  | @not scope t hoperand _ ih =>
    obtain ⟨ts, raw, hspells, hbind, hwritten⟩ := ih hoperand
    refine ⟨.not :: t.enclosed 4 ts, .not raw, fun cs hcs => ?_, by rw [bindNames, hbind], ?_⟩
    · simp only [render, String.toList_append, List.append_assoc]
      rw [tokenize_not, spells_enclose 4 hspells cs hcs, List.cons_append]
    · exact .of_writes (Nat.succ_pos 3) fun last =>
        .not (hwritten.enclosed last (by decide) (by decide))
  | @binary scope op l r hleft hright _ _ ihl ihr =>
    obtain ⟨ts, l', hl, hbindl, hwrittenl⟩ := ihl hleft
    obtain ⟨us, r', hr, hbindr, hwrittenr⟩ := ihr hright
    refine ⟨l.enclosed op.leftPrecedence ts ++ .connective op :: r.enclosed op.rightPrecedence us,
      .binary op l' r', fun cs hcs => ?_, by rw [bindNames, hbindl, hbindr], ?_⟩
    · simp only [render, String.toList_append, List.append_assoc]
      rw [spells_enclose _ hl _ (endsName_text " " (by decide)), tokenize_space,
        tokenize_connective, tokenize_space, spells_enclose _ hr cs hcs, List.cons_append]
    · have hpos : 0 < op.precedence := by cases op <;> decide
      refine .of_writes hpos fun last => .binary op ?_ ?_
      · exact hwrittenl.enclosed false (by cases op <;> decide) (by cases op <;> decide)
      · exact hwrittenr.enclosed last (by cases op <;> decide) (by cases op <;> decide)
  | @quantified scope q x body hname hbody _ ih =>
    obtain ⟨ts, raw, hspells, hbind, hwritten⟩ := ih hbody
    refine ⟨.quantifier q :: .name x :: ([.dot] ++ ts), .quantified q x raw, fun cs hcs => ?_,
      by rw [bindNames, hbind], ?_, fun level last hpos hle => ?_⟩
    · simp only [render, String.toList_append, List.append_assoc]
      rw [tokenize_quantifier q (endsName_text " " (by decide)), tokenize_space,
        tokenize_name hname (endsName_text ". " (by decide)), tokenize_dot, hspells cs hcs]
      simp
    · exact (Writes.quantified q x (.inl rfl) hwritten.body).mono (by decide) (by decide)
    · exact absurd hle (Nat.not_le.mpr hpos)

end Term

namespace Formula

variable {t : Term}

/-- A legible formula is read back from its printed form. -/
theorem parse_render (h : t.Legible []) (hformula : t.isFormula = true) :
    Formula.parse t.render = .ok t := by
  obtain ⟨ts, raw, hspells, hbind, hwritten⟩ := Term.exists_writes h hformula
  refine parse_eq_ok_iff.mpr ⟨raw, ?_, hbind⟩
  rw [hspells.tokenize_eq]
  exact hwritten.body

/-- A legible term is read back from its printed form just if it is a formula; and what is read from
any text is a legible formula, so it is read back, no variable is free in it, and no quantifier
binds the empty name. -/
theorem round_trip :
    (∀ t : Term, t.Legible [] → (Formula.parse t.render = .ok t ↔ t.isFormula = true)) ∧
      ∀ (text : String) (t : Term), Formula.parse text = .ok t →
        Formula.parse t.render = .ok t ∧ t.Legible [] ∧ t.isFormula = true ∧ t.Closed ∧
          t.hasUnnamedBinder = false := by
  constructor
  · intro t h
    exact ⟨fun hread => (legible_of_parse hread).2, parse_render h⟩
  · intro text t hread
    obtain ⟨h, hformula⟩ := legible_of_parse hread
    exact ⟨parse_render h hformula, h, hformula, h.closed, h.hasUnnamedBinder_eq⟩

/-- The formula `forall x. (P(x, f(a)) | (exists y. Q(x, y))) & ~R -> S -> x`. -/
def nestedBinders : Term :=
  .quantified .universal "x" (.binary .implies
    (.binary .and
      (.binary .or (.pred "P" [.var "x", .fn "f" [.fn "a" []]])
        (.quantified .existential "y" (.pred "Q" [.var "x", .var "y"])))
      (.not (.pred "R" [])))
    (.binary .implies (.pred "S" []) (.pred "x" [])))

theorem round_trip_nestedBinders :
    Formula.parse "forall x (P(x, f(a)) | exists y Q(x,y)) & !R() → S → x" = .ok nestedBinders ∧
      nestedBinders.Legible [] ∧ nestedBinders.Closed ∧
        Formula.parse nestedBinders.render = .ok nestedBinders := by
  have hread : Formula.parse "forall x (P(x, f(a)) | exists y Q(x,y)) & !R() → S → x" =
      .ok nestedBinders := by
    decide +kernel
  obtain ⟨-, hlegible, -, hclosed, -⟩ := round_trip.2 _ _ hread
  exact ⟨hread, hlegible, hclosed, (round_trip.1 nestedBinders hlegible).mpr rfl⟩

/-- A constant is legible, but what is read from its printed form is a predicate. -/
theorem parse_render_constant_ne :
    (Term.fn "a" []).Legible [] ∧
      Formula.parse (Term.fn "a" []).render = .ok (.pred "a" []) ∧
        Formula.parse (Term.fn "a" []).render ≠ .ok (.fn "a" []) := by
  have hname : IsName "a" := ⟨by decide, by simp, by simp, by decide, by decide⟩
  exact ⟨.fn hname (by simp) (by simp), by decide +kernel, by decide +kernel⟩

end Formula

end SignedTableaux
