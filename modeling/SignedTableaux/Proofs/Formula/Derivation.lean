import SignedTableaux.Proofs.Formula.Reading
import SignedTableaux.Term.Printer

/-!
# Which tokens write a formula

The grammar as a relation between lists of tokens and what they write. Formulas are written at
levels: an operand of a connective is written at least at the level that the connective asks for
on its side, a formula in parentheses is written at the tightest level, and a quantified formula
too, but only where no connective follows it, so that its body reaches as far as possible.

## Main definitions

* `Grammar.WritesTerm` — the tokens of a term
* `Grammar.Writes` — the tokens of a formula at a level, at the end of a formula or before a
  connective
* `Grammar.ReadsLevel` — a parser that reads formulas of a level only

## Main results

* `Grammar.writesTerm_of_reads` — what is read as a term writes that term
* `Grammar.readsLevel_operand`, `Grammar.readsLevel_formulaOf` — what is read as an operand or as a
  formula writes it
-/

namespace SignedTableaux.Grammar

open SignedTableaux.Parser

/-! ### The grammar -/

/-- Arguments in parentheses, with commas between them. -/
def argumentTokens (args : List (List Token)) : List Token :=
  .leftParen :: ([.comma].intercalate args ++ [.rightParen])

/-- Whether tokens write a term: a name, perhaps with arguments, perhaps none, in parentheses. -/
inductive WritesTerm : List Token → Term → Prop
  | bare (f : String) : WritesTerm [.name f] (.fn f [])
  | applied (f : String) (args : List (List Token × Term))
      (h : ∀ arg ∈ args, WritesTerm arg.1 arg.2) :
      WritesTerm (.name f :: argumentTokens (args.map Prod.fst)) (.fn f (args.map Prod.snd))

/-- Whether tokens write a formula at a level, where `last` tells whether no connective follows. -/
inductive Writes : (level : Nat) → (last : Bool) → List Token → Term → Prop
  /-- What binds tightly may stand where less is asked for. -/
  | looser {level : Nat} {last : Bool} {ts : List Token} {t : Term} (hlevel : level < 4)
      (h : Writes (level + 1) last ts t) : Writes level last ts t
  /-- A predicate is written like a term. -/
  | atom {last : Bool} {ts : List Token} {p : String} {args : List Term}
      (h : WritesTerm ts (.fn p args)) : Writes 4 last ts (.pred p args)
  | not {last : Bool} {ts : List Token} {t : Term} (h : Writes 4 last ts t) :
      Writes 4 last (.not :: ts) (.not t)
  /-- The body reaches to the end; the dot may be left out. -/
  | quantified (q : Quantifier) (x : String) {dot ts : List Token} {body : Term}
      (hdot : dot = [.dot] ∨ dot = []) (h : Writes 1 true ts body) :
      Writes 4 true (.quantifier q :: .name x :: (dot ++ ts)) (.quantified q x body)
  | parenthesized {last : Bool} {ts : List Token} {t : Term} (h : Writes 1 true ts t) :
      Writes 4 last (.leftParen :: (ts ++ [.rightParen])) t
  | binary {last : Bool} (op : Connective) {ts us : List Token} {l r : Term}
      (hl : Writes op.leftPrecedence false ts l) (hr : Writes op.rightPrecedence last us r) :
      Writes op.precedence last (ts ++ .connective op :: us) (.binary op l r)

theorem Writes.mono {level level' : Nat} {last : Bool} {ts : List Token} {t : Term}
    (h : Writes level last ts t) (hle : level' ≤ level) (hlevel : level ≤ 4) :
    Writes level' last ts t := by
  induction hle with
  | refl => exact h
  | step _ ih => exact ih (.looser hlevel h) (Nat.le_of_succ_le hlevel)

/-- Whether no connective is next. -/
def isLast : List Token → Bool
  | .connective _ :: _ => false
  | _ => true

/-! ### What is read as a term -/

theorem intercalate_cons (separator : Token) (item : List Token) (items : List (List Token)) :
    [separator].intercalate (item :: items) = item ++ items.flatMap (separator :: ·) := by
  induction items generalizing item with
  | nil => simp [List.intercalate]
  | cons next items ih =>
    rw [List.flatMap_cons, ← List.append_assoc]
    have hrest := ih next
    simp only [List.intercalate, List.intersperse_cons_cons, List.flatten_cons] at hrest ⊢
    simp [hrest]

theorem sublist_intercalate (separator : Token) {item : List Token} {items : List (List Token)}
    (h : item ∈ items) : item.Sublist ([separator].intercalate items) := by
  cases items with
  | nil => simp at h
  | cons first items =>
    rw [intercalate_cons]
    rcases List.mem_cons.mp h with rfl | h
    · exact List.sublist_append_left ..
    · have hitem : (separator :: item).Sublist (items.flatMap (separator :: ·)) := by
        rw [List.flatMap_def]
        exact List.sublist_flatten_of_mem (List.mem_map_of_mem h)
      exact ((List.sublist_cons_self ..).trans hitem).trans (List.sublist_append_right ..)

variable {ts rest : List Token}

theorem exists_items_of_repeats {argument : Parser Term} {mid : List Token} {as : List Term}
    (h : ∀ ts a rest, argument.Reads ts a rest → ∃ used, ts = used ++ rest ∧ WritesTerm used a)
    (hrepeats : Repeats .comma argument.Reads mid as rest) :
    ∃ items : List (List Token × Term), (∀ item ∈ items, WritesTerm item.1 item.2) ∧
      as = items.map Prod.snd ∧ mid = (items.map Prod.fst).flatMap (.comma :: ·) ++ rest := by
  induction hrepeats with
  | stop _ => exact ⟨[], by simp, rfl, rfl⟩
  | more hitem _ ih =>
    obtain ⟨used, rfl, hused⟩ := h _ _ _ hitem
    obtain ⟨items, hitems, rfl, rfl⟩ := ih
    exact ⟨(used, _) :: items, List.forall_mem_cons.mpr ⟨hused, hitems⟩, rfl, by simp⟩

/-- What is read as arguments writes them after any name. -/
theorem writesTerm_of_reads_arguments {argument : Parser Term} {args : List Term}
    (h : ∀ ts a rest, argument.Reads ts a rest → ∃ used, ts = used ++ rest ∧ WritesTerm used a)
    (hreads : (arguments argument).Reads ts args rest) :
    ∃ used, ts = used ++ rest ∧ ∀ f, WritesTerm (.name f :: used) (.fn f args) := by
  have hshrinks : argument.Shrinks := by
    intro ts a rest hreads
    obtain ⟨used, rfl, -⟩ := h ts a rest hreads
    simp
  rcases (reads_arguments_iff hshrinks).mp hreads with
    ⟨rfl, rfl⟩ | ⟨body, a, mid, as, rfl, -, hfirst, hothers, rfl⟩ | ⟨rfl, -, rfl⟩
  · exact ⟨argumentTokens [], rfl, fun f => .applied f [] (by simp)⟩
  · obtain ⟨used, rfl, hused⟩ := h _ _ _ hfirst
    obtain ⟨items, hitems, rfl, rfl⟩ := exists_items_of_repeats h hothers
    refine ⟨argumentTokens (((used, a) :: items).map Prod.fst), ?_, fun f => ?_⟩
    · simp [argumentTokens, intercalate_cons]
    · exact .applied f ((used, a) :: items) (List.forall_mem_cons.mpr ⟨hused, hitems⟩)
  · exact ⟨[], rfl, .bare⟩

/-- What is read as a term writes that term. -/
theorem writesTerm_of_reads (depth : Nat) (ts : List Token) (t : Term) (rest : List Token)
    (h : (term depth).Reads ts t rest) : ∃ used, ts = used ++ rest ∧ WritesTerm used t := by
  induction depth generalizing ts t rest with
  | zero => exact absurd h not_reads_fail
  | succ depth ih =>
    simp only [term, reads_bind, reads_name, reads_pure] at h
    obtain ⟨f, _, rfl, args, _, hargs, rfl, rfl⟩ := h
    obtain ⟨used, rfl, hused⟩ := writesTerm_of_reads_arguments ih hargs
    exact ⟨.name f :: used, rfl, hused f⟩

/-! ### What is read as a formula -/

/-- Whether what a parser reads are formulas of a level, and it stops before no connective that
could join formulas of this level. -/
def ReadsLevel (p : Parser Term) (level : Nat) : Prop :=
  ∀ ts t rest, p.Reads ts t rest →
    (∃ used, ts = used ++ rest ∧ Writes level (isLast rest) used t) ∧
      ∀ op : Connective, level ≤ op.precedence → rest.head? ≠ some (.connective op)

variable {p first item : Parser Term} {operands : List Construct → Parser Term}

theorem ReadsLevel.shrinks {level : Nat} (h : ReadsLevel p level) : p.Shrinks := by
  intro ts t rest hreads
  obtain ⟨⟨used, rfl, -⟩, -⟩ := h ts t rest hreads
  simp

/-- Where a repetition ends there is no connective of the level, as there is none after an item. -/
theorem head?_ne_of_repeats {op : Connective} {level : Nat} {mid : List Token} {as : List Term}
    (hitem : ReadsLevel item level) (h : Repeats (.connective op) item.Reads mid as rest)
    (hmid : ∀ op' : Connective, level ≤ op'.precedence → mid.head? ≠ some (.connective op')) :
    rest.head? ≠ some (.connective op) ∧
      ∀ op' : Connective, level ≤ op'.precedence → rest.head? ≠ some (.connective op') := by
  induction h with
  | stop hhead => exact ⟨hhead, hmid⟩
  | more h _ ih => exact ih (hitem _ _ _ h).2

/-- A connective that groups to the left. -/
theorem writes_foldl_of_repeats {op : Connective} (hleft : op.leftPrecedence = op.precedence)
    (hitem : ReadsLevel item op.rightPrecedence) {mid before : List Token} {as : List Term}
    {t : Term} (h : Repeats (.connective op) item.Reads mid as rest)
    (hbefore : Writes op.precedence (isLast mid) before t) :
    ∃ used, mid = used ++ rest ∧
      Writes op.precedence (isLast rest) (before ++ used) (as.foldl (.binary op) t) := by
  induction h generalizing before t with
  | stop _ => exact ⟨[], rfl, by simpa using hbefore⟩
  | more h _ ih =>
    obtain ⟨⟨used, rfl, hused⟩, -⟩ := hitem _ _ _ h
    obtain ⟨used', rfl, hused'⟩ := ih (.binary op (hleft ▸ hbefore) hused)
    exact ⟨.connective op :: (used ++ used'), by simp, by simpa using hused'⟩

/-- Implication groups to the right. -/
theorem writes_implyChain_of_repeats (hitem : ReadsLevel item 2) {mid before : List Token}
    {as : List Term} {t : Term} (h : Repeats (.connective .implies) item.Reads mid as rest)
    (hbefore : Writes 2 (isLast mid) before t) :
    ∃ used, mid = used ++ rest ∧ Writes 1 (isLast rest) (before ++ used) (implyChain t as) := by
  induction h generalizing before t with
  | stop _ => exact ⟨[], rfl, by simpa [implyChain] using hbefore.looser (by decide)⟩
  | more h _ ih =>
    obtain ⟨⟨used, rfl, hused⟩, -⟩ := hitem _ _ _ h
    obtain ⟨used', rfl, hused'⟩ := ih hused
    refine ⟨.connective .implies :: (used ++ used'), by simp, ?_⟩
    exact .binary .implies hbefore hused'

theorem precedence_injective : Function.Injective Connective.precedence := by
  intro op op' h
  cases op <;> cases op' <;> simp_all [Connective.precedence]

/-- A chain of a connective that groups to the left, over items of the next level. -/
theorem readsLevel_chain (op : Connective) (hleft : op.leftPrecedence = op.precedence)
    (hright : op.rightPrecedence = op.precedence + 1) (hop : op.precedence < 4)
    (hfirst : ReadsLevel first op.rightPrecedence) (hitem : ReadsLevel item op.rightPrecedence) :
    ReadsLevel (do
      let (t, ts) ← chain (.connective op) first item
      return ts.foldl (.binary op) t) op.precedence := by
  intro ts t rest hreads
  obtain ⟨a, as, mid, ha, hothers, rfl⟩ := (reads_combine_iff hitem.shrinks).mp hreads
  obtain ⟨⟨used, rfl, hused⟩, hmid⟩ := hfirst _ _ _ ha
  obtain ⟨used', rfl, hused'⟩ := writes_foldl_of_repeats hleft hitem hothers
    (.looser hop (hright ▸ hused))
  obtain ⟨hop', hstop⟩ := head?_ne_of_repeats hitem hothers hmid
  refine ⟨⟨used ++ used', by simp, hused'⟩, fun op' hlevel => ?_⟩
  rcases Nat.eq_or_lt_of_le hlevel with heq | hlt
  · rwa [← precedence_injective heq]
  · exact hstop op' (hright ▸ hlt)

theorem readsLevel_conjunctionOf (h : ∀ wanted, ReadsLevel (operands wanted) 4) :
    ReadsLevel (conjunctionOf operands) 3 :=
  readsLevel_chain .and rfl rfl (by decide) (h _) (h _)

theorem readsLevel_disjunctionOf (h : ∀ wanted, ReadsLevel (operands wanted) 4) :
    ReadsLevel (disjunctionOf operands) 2 :=
  readsLevel_chain .or rfl rfl (by decide) (readsLevel_conjunctionOf h)
    (readsLevel_conjunctionOf h)

/-- What is read as a formula writes it, and no connective follows. -/
theorem readsLevel_formulaOf (h : ∀ wanted, ReadsLevel (operands wanted) 4) :
    ReadsLevel (formulaOf operands) 1 := by
  have hitem := readsLevel_disjunctionOf h
  intro ts t rest hreads
  obtain ⟨a, as, mid, ha, hothers, rfl⟩ := (reads_combine_iff hitem.shrinks).mp hreads
  obtain ⟨⟨used, rfl, hused⟩, hmid⟩ := hitem _ _ _ ha
  obtain ⟨used', rfl, hused'⟩ := writes_implyChain_of_repeats hitem hothers hused
  obtain ⟨himplies, hstop⟩ := head?_ne_of_repeats hitem hothers hmid
  refine ⟨⟨used ++ used', by simp, hused'⟩, fun op _ => ?_⟩
  cases op with
  | and => exact hstop .and (by decide)
  | or => exact hstop .or (by decide)
  | implies => exact himplies

theorem isLast_of_head?_ne (h : ∀ op : Connective, rest.head? ≠ some (.connective op)) :
    isLast rest = true := by
  unfold isLast
  split
  · next op _ => exact absurd rfl (h op)
  · rfl

theorem exists_writes_of_reads_formulaOf (h : ∀ wanted, ReadsLevel (operands wanted) 4) {t : Term}
    (hreads : (formulaOf operands).Reads ts t rest) :
    isLast rest = true ∧ ∃ used, ts = used ++ rest ∧ Writes 1 true used t := by
  obtain ⟨⟨used, rfl, hused⟩, hstop⟩ := readsLevel_formulaOf h _ _ _ hreads
  have hlast : isLast rest = true := isLast_of_head?_ne fun op => hstop op (by cases op <;> decide)
  exact ⟨hlast, used, rfl, hlast ▸ hused⟩

/-- What is read as an operand writes it. -/
theorem readsLevel_operand (depth : Nat) (wanted : List Construct) :
    ReadsLevel (operand depth wanted) 4 := by
  induction depth generalizing wanted with
  | zero => exact fun _ _ _ hreads => absurd hreads not_reads_fail
  | succ depth ih =>
    intro ts t rest hreads
    refine ⟨?_, fun op hlevel => absurd hlevel (by cases op <;> decide)⟩
    unfold Reads operand at hreads
    split at hreads
    · have hnot : (negationOf (operand depth)).Reads _ t rest := hreads
      simp only [negationOf, reads_bind, reads_pure] at hnot
      obtain ⟨u, _, hu, rfl, rfl⟩ := hnot
      obtain ⟨⟨used, rfl, hused⟩, -⟩ := ih _ _ _ _ hu
      exact ⟨.not :: used, rfl, hused.not⟩
    · next q _ =>
      have hquantified : (quantifiedOf q (operand depth)).Reads _ t rest := hreads
      simp only [quantifiedOf, reads_bind, reads_name, reads_optionalDot_iff, reads_pure]
        at hquantified
      obtain ⟨x, _, rfl, -, mid, hdot, body, _, hbody, rfl, rfl⟩ := hquantified
      obtain ⟨hlast, used, rfl, hused⟩ := exists_writes_of_reads_formulaOf ih hbody
      rw [hlast]
      rcases hdot with rfl | ⟨rfl, -⟩
      · exact ⟨_, by simp, .quantified q x (.inl rfl) hused⟩
      · exact ⟨_, by simp, .quantified q x (.inr rfl) hused⟩
    · next p _ =>
      have hatom : (atomOf p (term depth)).Reads _ t rest := hreads
      simp only [atomOf, reads_bind, reads_pure] at hatom
      obtain ⟨args, _, hargs, rfl, rfl⟩ := hatom
      obtain ⟨used, rfl, hused⟩ := writesTerm_of_reads_arguments (writesTerm_of_reads depth) hargs
      exact ⟨.name p :: used, rfl, .atom (hused p)⟩
    · have hformula : (parenthesizedOf (operand depth)).Reads _ t rest := hreads
      simp only [parenthesizedOf, reads_bind, reads_token, reads_pure] at hformula
      obtain ⟨u, _, hu, -, _, rfl, rfl, rfl⟩ := hformula
      obtain ⟨-, used, rfl, hused⟩ := exists_writes_of_reads_formulaOf ih hu
      exact ⟨_, by simp, .parenthesized hused⟩
    · exact absurd hreads not_reads_want

theorem reads_wholeFormula {t : Term} :
    wholeFormula.Reads ts t rest ↔ (whole (formulaOf (operand (ts.length + 1)))).Reads ts t rest :=
  reads_congr rfl

/-- What is read as a whole formula writes it, and nothing is left. -/
theorem writes_of_reads_wholeFormula {t : Term} (h : wholeFormula.Reads ts t rest) :
    Writes 1 true ts t ∧ rest = [] := by
  simp only [reads_wholeFormula, whole, reads_bind, reads_finish, reads_pure] at h
  obtain ⟨_, _, hformula, -, _, ⟨rfl, rfl⟩, rfl, rfl⟩ := h
  obtain ⟨-, used, rfl, hused⟩ := exists_writes_of_reads_formulaOf (readsLevel_operand _) hformula
  rw [List.append_nil]
  exact ⟨hused, rfl⟩

end SignedTableaux.Grammar
