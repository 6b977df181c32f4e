import SignedTableaux.Proofs.Formula.Derivation

/-!
# What the grammar derives is read

Tokens that write a formula are read as that formula, whatever follows them that may follow a
formula of their level. A chain of a connective that groups to the left is read from its first
operand on. So at the two levels of such chains the statement is about the whole chain: what is read
is what the tokens write, joined to all that follows them in the chain.

## Main definitions

* `Grammar.Follows` — the tokens that may follow a formula of a level
* `Grammar.ReadsBack` — the parser of a level reads the formula that tokens write

## Main results

* `Grammar.exists_reads_of_writesTerm` — tokens that write a term are read as that term
* `Grammar.reads_wholeTerm_iff` — the parser of terms reads just what tokens write
* `Grammar.readsBack_of_writes` — tokens that write a formula of a level are read as that formula
* `Grammar.reads_wholeFormula_iff` — the parser of formulas reads just what the grammar derives
-/

namespace SignedTableaux.Grammar

open SignedTableaux.Parser

variable {ts rest : List Token} {t : Term}

/-! ### Terms -/

theorem repeats_of_reads {argument : Parser Term} {items : List (List Token × Term)}
    (h : ∀ item ∈ items, ∀ rest : List Token, rest.head? ≠ some .leftParen →
      argument.Reads (item.1 ++ rest) item.2 rest) :
    Repeats .comma argument.Reads
      ((items.map Prod.fst).flatMap (.comma :: ·) ++ .rightParen :: rest) (items.map Prod.snd)
      (.rightParen :: rest) := by
  induction items with
  | nil => exact .stop (by simp)
  | cons item items ih =>
    obtain ⟨hitem, hitems⟩ := List.forall_mem_cons.mp h
    have hnext : ((items.map Prod.fst).flatMap (.comma :: ·) ++
        .rightParen :: rest).head? ≠ some .leftParen := by
      cases items <;> simp
    simpa using Repeats.more (hitem _ hnext) (ih hitems)

theorem shrinks_term (depth : Nat) : (term depth).Shrinks := by
  intro ts t rest h
  obtain ⟨used, rfl, -⟩ := writesTerm_of_reads depth ts t rest h
  simp

theorem exists_name_of_writesTerm (h : WritesTerm ts t) : ∃ f us, ts = .name f :: us := by
  cases h with
  | bare f => exact ⟨f, [], rfl⟩
  | applied f args h => exact ⟨f, _, rfl⟩

theorem reads_arguments_of_reads {depth : Nat} {items : List (List Token × Term)}
    (hwrites : ∀ item ∈ items, WritesTerm item.1 item.2)
    (h : ∀ item ∈ items, ∀ rest : List Token, rest.head? ≠ some .leftParen →
      (term depth).Reads (item.1 ++ rest) item.2 rest) :
    (arguments (term depth)).Reads (argumentTokens (items.map Prod.fst) ++ rest)
      (items.map Prod.snd) rest := by
  rw [reads_arguments_iff (shrinks_term depth)]
  cases items with
  | nil => exact .inl ⟨rfl, rfl⟩
  | cons item items =>
    obtain ⟨hitem, hitems⟩ := List.forall_mem_cons.mp h
    obtain ⟨f, us, hus⟩ := exists_name_of_writesTerm (hwrites item List.mem_cons_self)
    have hnext : ((items.map Prod.fst).flatMap (.comma :: ·) ++
        .rightParen :: rest).head? ≠ some .leftParen := by
      cases items <;> simp
    refine .inr (.inl ⟨_, item.2, _, items.map Prod.snd, ?_, ?_, hitem _ hnext,
      repeats_of_reads hitems, rfl⟩)
    · simp [argumentTokens, intercalate_cons]
    · simp [hus]

/-- Tokens that write a term are a name and its arguments, and the arguments are read. -/
theorem exists_reads_of_writesTerm (h : WritesTerm ts t) :
    ∃ f args us, ts = .name f :: us ∧ t = .fn f args ∧
      ∀ depth, us.length ≤ depth → ∀ rest : List Token, rest.head? ≠ some .leftParen →
        (arguments (term depth)).Reads (us ++ rest) args rest := by
  induction h with
  | bare f =>
    refine ⟨f, [], [], rfl, rfl, fun depth _ rest hrest => ?_⟩
    exact (reads_arguments_iff (shrinks_term depth)).mpr (.inr (.inr ⟨rfl, hrest, rfl⟩))
  | applied f items hwrites ih =>
    refine ⟨f, _, _, rfl, rfl, fun depth hdepth rest _ => ?_⟩
    refine reads_arguments_of_reads hwrites fun item hitem rest hrest => ?_
    obtain ⟨g, args, us, hts, ht, hreads⟩ := ih item hitem
    -- the parentheses take up the depth that the argument goes down
    have hlength :=
      (sublist_intercalate .comma (List.mem_map_of_mem (f := Prod.fst) hitem)).length_le
    obtain ⟨depth, rfl⟩ : ∃ depth', depth = depth' + 1 :=
      Nat.exists_eq_succ_of_ne_zero (by simp [argumentTokens] at hdepth; omega)
    have hus : us.length ≤ depth := by
      simp only [hts, argumentTokens, List.length_cons, List.length_append] at hlength hdepth
      omega
    simp only [hts, ht, term, reads_bind, reads_name, reads_pure]
    exact ⟨g, us ++ rest, rfl, args, rest, hreads depth hus rest hrest, rfl, rfl⟩

/-- The parser of terms reads just what tokens write. -/
theorem reads_wholeTerm_iff : wholeTerm.Reads ts t rest ↔ WritesTerm ts t ∧ rest = [] := by
  have hwhole : wholeTerm.Reads ts t rest ↔ (whole (term (ts.length + 1))).Reads ts t rest :=
    reads_congr rfl
  simp only [hwhole, whole, reads_bind, reads_finish, reads_pure]
  constructor
  · rintro ⟨_, _, hreads, -, _, ⟨rfl, rfl⟩, rfl, rfl⟩
    obtain ⟨used, rfl, hused⟩ := writesTerm_of_reads _ _ _ _ hreads
    rw [List.append_nil]
    exact ⟨hused, rfl⟩
  · rintro ⟨h, rfl⟩
    obtain ⟨f, args, us, rfl, rfl, hreads⟩ := exists_reads_of_writesTerm h
    refine ⟨_, [], ?_, (), [], ⟨rfl, rfl⟩, rfl, rfl⟩
    have hargs := hreads (us.length + 1) (Nat.le_succ _) [] (by simp)
    simp only [term, reads_bind, reads_name, reads_pure]
    exact ⟨f, us, rfl, args, [], by simpa using hargs, rfl, rfl⟩

/-! ### Formulas -/

/-- Whether tokens may follow a formula of a level: nothing, a closing parenthesis or, if the
formula is not the last operand, a connective that takes a left operand of this level. -/
inductive Follows (level : Nat) (last : Bool) : List Token → Prop
  | nothing : Follows level last []
  | rightParen (rest : List Token) : Follows level last (.rightParen :: rest)
  | connective (op : Connective) (rest : List Token) (hlast : last = false)
      (hlevel : op.leftPrecedence ≤ level) : Follows level last (.connective op :: rest)

namespace Follows

variable {level level' : Nat} {last : Bool}

theorem mono (h : Follows level last rest) (hlevel : level ≤ level') :
    Follows level' last rest := by
  cases h with
  | nothing => exact .nothing
  | rightParen rest => exact .rightParen rest
  | connective op rest hlast hop => exact .connective op rest hlast (Nat.le_trans hop hlevel)

/-- No connective follows the last operand, so the level does not matter. -/
theorem of_last (h : Follows level true rest) : Follows level' true rest := by
  cases h with
  | nothing => exact .nothing
  | rightParen rest => exact .rightParen rest
  | connective op rest hlast hop => cases hlast

theorem head?_ne_leftParen (h : Follows level last rest) : rest.head? ≠ some .leftParen := by
  cases h <;> simp

theorem head?_ne_connective (h : Follows level last rest) {op : Connective}
    (hop : level < op.leftPrecedence) : rest.head? ≠ some (.connective op) := by
  cases h with
  | nothing => simp
  | rightParen rest => simp
  | connective op' rest hlast hop' =>
    intro heq
    obtain rfl : op' = op := by simpa using heq
    omega

end Follows

/-- Whether the parser of a level reads `t` from the tokens and leaves `rest`. At the levels of
conjunction and disjunction it reads `t` and the operands that follow, joined. -/
def ReadsBack (operands : List Construct → Parser Term) (level : Nat) (ts : List Token) (t : Term)
    (rest : List Token) : Prop :=
  match level with
  | 4 => ∀ wanted, (operands wanted).Reads (ts ++ rest) t rest
  | 3 => ∀ as rest', Repeats (.connective .and)
      (operands [.identifier, .negation, .quantified]).Reads rest as rest' →
        (conjunctionOf operands).Reads (ts ++ rest) (as.foldl (.binary .and) t) rest'
  | 2 => ∀ as rest', Repeats (.connective .or) (conjunctionOf operands).Reads rest as rest' →
      (disjunctionOf operands).Reads (ts ++ rest) (as.foldl (.binary .or) t) rest'
  | _ => (formulaOf operands).Reads (ts ++ rest) t rest

section Chains

variable {operands : List Construct → Parser Term} {level : Nat} {last : Bool}

theorem reads_conjunctionOf_iff (h : ∀ wanted, ReadsLevel (operands wanted) 4) :
    (conjunctionOf operands).Reads ts t rest ↔
      ∃ a as mid, (operands [.conjunction]).Reads ts a mid ∧
        Repeats (.connective .and) (operands [.identifier, .negation, .quantified]).Reads mid as
          rest ∧ as.foldl (.binary .and) a = t :=
  reads_combine_iff (h _).shrinks

theorem reads_disjunctionOf_iff (h : ∀ wanted, ReadsLevel (operands wanted) 4) :
    (disjunctionOf operands).Reads ts t rest ↔
      ∃ a as mid, (conjunctionOf operands).Reads ts a mid ∧
        Repeats (.connective .or) (conjunctionOf operands).Reads mid as rest ∧
          as.foldl (.binary .or) a = t :=
  reads_combine_iff (readsLevel_conjunctionOf h).shrinks

theorem reads_formulaOf_iff (h : ∀ wanted, ReadsLevel (operands wanted) 4) :
    (formulaOf operands).Reads ts t rest ↔
      ∃ a as mid, (disjunctionOf operands).Reads ts a mid ∧
        Repeats (.connective .implies) (disjunctionOf operands).Reads mid as rest ∧
          implyChain a as = t :=
  reads_combine_iff (readsLevel_disjunctionOf h).shrinks

/-- What is read at a level is read at the level below it. -/
theorem ReadsBack.looser (h : ∀ wanted, ReadsLevel (operands wanted) 4) (hlevel : level < 4)
    (hback : ReadsBack operands (level + 1) ts t rest) (hfollows : Follows level last rest) :
    ReadsBack operands level ts t rest := by
  match level, hlevel with
  | 0, _ => exact hback
  | 1, _ =>
    refine (reads_formulaOf_iff h).mpr ⟨t, [], rest, ?_, .stop ?_, rfl⟩
    · exact hback [] rest (.stop (hfollows.head?_ne_connective (by decide)))
    · exact hfollows.head?_ne_connective (by decide)
  | 2, _ =>
    intro as rest' hrest
    refine (reads_disjunctionOf_iff h).mpr ⟨t, as, rest, ?_, hrest, rfl⟩
    exact hback [] rest (.stop (hfollows.head?_ne_connective (by decide)))
  | 3, _ =>
    intro as rest' hrest
    exact (reads_conjunctionOf_iff h).mpr ⟨t, as, rest, hback _, hrest, rfl⟩

/-- A connective joins what is read before it and after it. -/
theorem ReadsBack.binary (h : ∀ wanted, ReadsLevel (operands wanted) 4) {op : Connective}
    {us : List Token} {l r : Term}
    (hl : ReadsBack operands op.leftPrecedence ts l (.connective op :: (us ++ rest)))
    (hr : ReadsBack operands op.rightPrecedence us r rest)
    (hfollows : Follows op.precedence last rest) :
    ReadsBack operands op.precedence (ts ++ .connective op :: us) (.binary op l r) rest := by
  cases op with
  | and =>
    intro as rest' hrest
    simpa using hl (r :: as) rest' (.more (hr _) hrest)
  | or =>
    intro as rest' hrest
    have hright := hr [] rest (.stop (hfollows.head?_ne_connective (by decide)))
    simpa using hl (r :: as) rest' (.more hright hrest)
  | implies =>
    obtain ⟨a, as, mid, ha, has, hchain⟩ := (reads_formulaOf_iff h).mp hr
    refine (reads_formulaOf_iff h).mpr ⟨l, a :: as, .connective .implies :: (us ++ rest), ?_,
      .more ha has, by rw [implyChain, hchain]⟩
    simpa using hl [] _ (.stop (by simp))

end Chains

theorem exists_head_of_writes {level : Nat} {last : Bool} (h : Writes level last ts t) :
    ∃ first us, ts = first :: us ∧ first ≠ .dot := by
  induction h with
  | looser _ _ ih => exact ih
  | atom h =>
    obtain ⟨f, us, rfl⟩ := exists_name_of_writesTerm h
    exact ⟨_, us, rfl, by simp⟩
  | not _ _ => exact ⟨_, _, rfl, by simp⟩
  | quantified q x _ _ _ => exact ⟨_, _, rfl, by simp⟩
  | parenthesized _ _ => exact ⟨_, _, rfl, by simp⟩
  | binary op _ _ ihl _ =>
    obtain ⟨first, us, rfl, hfirst⟩ := ihl
    exact ⟨first, _, rfl, hfirst⟩

theorem exists_depth_of_cons {first : Token} {depth : Nat} (h : (first :: ts).length ≤ depth) :
    ∃ depth', depth = depth' + 1 ∧ ts.length ≤ depth' := by
  obtain ⟨depth', rfl⟩ := Nat.exists_eq_succ_of_ne_zero (Nat.ne_zero_of_lt h)
  exact ⟨depth', rfl, Nat.le_of_succ_le_succ h⟩

/-- Tokens that write a formula of a level are read as that formula. -/
theorem readsBack_of_writes {level : Nat} {last : Bool} (h : Writes level last ts t) (depth : Nat)
    (hdepth : ts.length ≤ depth) (rest : List Token) (hfollows : Follows level last rest) :
    ReadsBack (operand depth) level ts t rest := by
  induction h generalizing depth rest with
  | looser hlevel _ ih =>
    have hback := ih depth hdepth rest (hfollows.mono (Nat.le_succ _))
    exact hback.looser (readsLevel_operand depth) hlevel hfollows
  | atom h =>
    intro wanted
    obtain ⟨f, args, us, rfl, hfn, hargs⟩ := exists_reads_of_writesTerm h
    obtain ⟨rfl, rfl⟩ : _ = f ∧ _ = args := by simpa using hfn
    obtain ⟨depth, rfl, hlength⟩ := exists_depth_of_cons hdepth
    refine (reads_congr (q := atomOf _ (term depth)) rfl).mpr ?_
    simp only [atomOf, reads_bind, reads_pure]
    exact ⟨_, rest, hargs depth hlength rest hfollows.head?_ne_leftParen, rfl, rfl⟩
  | not _ ih =>
    intro wanted
    obtain ⟨depth, rfl, hlength⟩ := exists_depth_of_cons hdepth
    refine (reads_congr (q := negationOf (operand depth)) rfl).mpr ?_
    simp only [negationOf, reads_bind, reads_pure]
    exact ⟨_, rest, ih depth hlength rest hfollows _, rfl, rfl⟩
  | @quantified q x dot ts body hdot h ih =>
    intro wanted
    obtain ⟨depth, rfl, hlength⟩ := exists_depth_of_cons hdepth
    have hbody : ts.length ≤ depth := by simp at hlength; omega
    refine (reads_congr (q := quantifiedOf q (operand depth)) rfl).mpr ?_
    simp only [quantifiedOf, reads_bind, reads_name, reads_optionalDot_iff, reads_pure]
    refine ⟨x, dot ++ ts ++ rest, rfl, (), ts ++ rest, ?_, body, rest,
      ih depth hbody rest hfollows.of_last, rfl, rfl⟩
    rcases hdot with rfl | rfl
    · exact .inl (by simp)
    · obtain ⟨first, us, rfl, hfirst⟩ := exists_head_of_writes h
      exact .inr ⟨rfl, by simpa using hfirst⟩
  | @parenthesized last ts t _ ih =>
    intro wanted
    obtain ⟨depth, rfl, hlength⟩ := exists_depth_of_cons hdepth
    have hbody : ts.length ≤ depth := by simp at hlength; omega
    refine (reads_congr (q := parenthesizedOf (operand depth)) rfl).mpr ?_
    simp only [parenthesizedOf, reads_bind, reads_token, reads_pure]
    refine ⟨t, .rightParen :: rest, ?_, (), rest, rfl, rfl, rfl⟩
    simpa [ReadsBack] using ih depth hbody (.rightParen :: rest) (.rightParen rest)
  | binary op _ _ ihl ihr =>
    rw [List.length_append, List.length_cons] at hdepth
    refine ReadsBack.binary (readsLevel_operand depth) (ihl depth (by omega) _ ?_)
      (ihr depth (by omega) rest ?_) hfollows
    · exact .connective op _ rfl (Nat.le_refl _)
    · exact hfollows.mono (by cases op <;> decide)

/-- The parser of formulas reads just what the grammar derives. -/
theorem reads_wholeFormula_iff :
    wholeFormula.Reads ts t rest ↔ Writes 1 true ts t ∧ rest = [] := by
  refine ⟨writes_of_reads_wholeFormula, ?_⟩
  rintro ⟨h, rfl⟩
  simp only [reads_wholeFormula, whole, reads_bind, reads_finish, reads_pure]
  have hback := readsBack_of_writes h (ts.length + 1) (Nat.le_succ _) [] .nothing
  exact ⟨t, [], by simpa [ReadsBack] using hback, (), [], ⟨rfl, rfl⟩, rfl, rfl⟩

end SignedTableaux.Grammar
