import SignedTableaux.Proofs.Formula.RoundTrip

/-!
# The language of formulas

Which texts are formulas, said without a scanner or a parser. A text is first a sequence of tokens,
with separators anywhere between them and names and keywords that end only where no name character
follows. The tokens then derive a formula by the rules of a grammar with a level for each
connective. A rule sees the tokens that follow a formula, so that a quantified formula can be kept
from standing before a connective, which its body would have taken in.

## Main definitions

* `Lexes` — some characters are a sequence of tokens
* `Grammar.DerivesTerm`, `Grammar.Derives` — tokens derive a term or a formula where some names are
  bound

## Main results

* `lexes_iff` — characters are cut into tokens in one way, if in any
* `Grammar.derives_iff` — tokens derive what they write, with its names bound
* `Formula.parse_eq_ok_iff_derives` — just the formulas of the language are read
-/

namespace SignedTableaux

/-! ### Texts as sequences of tokens -/

/-- The characters that a token may be written as. -/
def Token.signs : Token → List Char
  | .quantifier .universal => ['∀']
  | .quantifier .existential => ['∃']
  | .not => ['~', '!', '¬']
  | .connective .and => ['&', '∧']
  | .connective .or => ['|', '∨']
  | .connective .implies => ['→']
  | .leftParen => ['(']
  | .rightParen => [')']
  | .comma => [',']
  | .dot => ['.']
  | .name _ | .stray _ => []

/-- Whether some characters are a sequence of tokens. -/
inductive Lexes : List Char → List Token → Prop
  | nil : Lexes [] []
  | separator {c : Char} {cs : List Char} {ts : List Token} (hc : c ∈ [' ', '\t', '\r', '\n'])
      (h : Lexes cs ts) : Lexes (c :: cs) ts
  /-- A name is as long as possible. -/
  | name {x : String} {cs : List Char} {ts : List Token} (hname : IsName x) (hends : EndsName cs)
      (h : Lexes cs ts) : Lexes (x.toList ++ cs) (.name x :: ts)
  | keyword (q : Quantifier) {cs : List Char} {ts : List Token} (hends : EndsName cs)
      (h : Lexes cs ts) : Lexes (q.keyword.toList ++ cs) (.quantifier q :: ts)
  | sign {c : Char} {t : Token} {cs : List Char} {ts : List Token} (hc : c ∈ t.signs)
      (h : Lexes cs ts) : Lexes (c :: cs) (t :: ts)
  | arrow {cs : List Char} {ts : List Token} (h : Lexes cs ts) :
      Lexes ('-' :: '>' :: cs) (.connective .implies :: ts)

/-- Whether all that is in a list of tokens may stand in a formula. -/
def NoStray (ts : List Token) : Prop :=
  ∀ text, .stray text ∉ ts

section Lexing

variable {c : Char} {cs word : List Char} {t : Token} {ts us : List Token}

theorem noStray_append : NoStray (ts ++ us) ↔ NoStray ts ∧ NoStray us := by
  simp [NoStray, forall_and]

theorem noStray_cons : NoStray (t :: ts) ↔ (∀ text, t ≠ .stray text) ∧ NoStray ts := by
  simp [NoStray, forall_and, eq_comm]

theorem isSeparator_iff : Token.isSeparator c = true ↔ c ∈ [' ', '\t', '\r', '\n'] := by
  simp [Token.isSeparator, or_assoc]

theorem isNameChar_of_isSeparator (h : Token.isSeparator c = true) :
    Token.isNameChar c = false := by
  have hc : c = ' ' ∨ c = '\t' ∨ c = '\r' ∨ c = '\n' := by simpa using isSeparator_iff.mp h
  rcases hc with rfl | rfl | rfl | rfl <;> decide

/-- The signs of a token stand for it, and are neither part of a name nor of an arrow. -/
theorem signs_spec (t : Token) : t.signs.all fun c =>
    !Token.isNameChar c && !Token.isSeparator c && c != '-' && decide (Token.ofSign c = t) := by
  cases t with
  | name _ | stray _ => rfl
  | quantifier q => cases q <;> decide
  | connective op => cases op <;> decide
  | not | leftParen | rightParen | comma | dot => decide

theorem tokenize_of_mem_signs (hc : c ∈ t.signs) : tokenize (c :: cs) = t :: tokenize cs := by
  have hsign := List.all_eq_true.mp (signs_spec t) c hc
  simp only [Bool.and_eq_true, Bool.not_eq_true', bne_iff_ne, decide_eq_true_eq] at hsign
  obtain ⟨⟨⟨hname, hseparator⟩, hne⟩, rfl⟩ := hsign
  exact tokenize_mark c hname hseparator hne

theorem mem_signs_ofSign (h : ∀ text, Token.ofSign c ≠ .stray text) :
    c ∈ (Token.ofSign c).signs := by
  unfold Token.ofSign at h ⊢
  split <;> simp_all [Token.signs]

theorem Lexes.tokenize_eq (h : Lexes cs ts) : tokenize cs = ts := by
  induction h with
  | nil => exact tokenize_nil
  | separator hc _ ih =>
    have hseparator := isSeparator_iff.mpr hc
    rw [tokenize_separator (isNameChar_of_isSeparator hseparator) hseparator, ih]
  | name hname hends _ ih => rw [tokenize_name hname hends, ih]
  | keyword q hends _ ih => rw [tokenize_quantifier q hends, ih]
  | sign hc _ ih => rw [tokenize_of_mem_signs hc, ih]
  | arrow _ ih => rw [tokenize_arrow, ih]

theorem Lexes.noStray (h : Lexes cs ts) : NoStray ts := by
  induction h with
  | nil => simp [NoStray]
  | separator _ _ ih => exact ih
  | name _ _ _ ih => exact noStray_cons.mpr ⟨by simp, ih⟩
  | keyword _ _ _ ih => exact noStray_cons.mpr ⟨by simp, ih⟩
  | @sign c t cs ts hc _ ih =>
    refine noStray_cons.mpr ⟨?_, ih⟩
    rintro text rfl
    cases hc
  | arrow _ ih => exact noStray_cons.mpr ⟨by simp, ih⟩

/-- A run of name characters that ends is a keyword or a name, unless it starts with a digit. -/
theorem lexes_word (h : Lexes cs ts) (hne : word ≠ [])
    (hword : ∀ c ∈ word, Token.isNameChar c = true) (hends : EndsName cs)
    (hstray : ∀ text, Token.ofWord word ≠ .stray text) :
    Lexes (word ++ cs) (.ofWord word :: ts) := by
  by_cases hforall : word = "forall".toList
  · subst hforall
    exact .keyword .universal hends h
  by_cases hexists : word = "exists".toList
  · subst hexists
    exact .keyword .existential hends h
  have hofWord : Token.ofWord word = .name (String.ofList word) := by
    have hdigit : ¬ word.head?.any Char.isDigit = true := by
      intro hdigit
      refine hstray (String.ofList word) ?_
      rw [Token.ofWord, if_neg hforall, if_neg hexists, if_pos hdigit]
    rw [Token.ofWord, if_neg hforall, if_neg hexists, if_neg hdigit]
  have hname := isName_of_ofWord_eq hne hword hofWord
  rw [hofWord]
  simpa using Lexes.name hname hends h

theorem lexes_wordLexeme (h : Lexes cs ts) (start : Nat)
    (hword : ∀ c ∈ word, Token.isNameChar c = true) (hends : EndsName cs)
    (hstray : NoStray ((wordLexeme start word).map Lexeme.token)) :
    Lexes (word ++ cs) ((wordLexeme start word).map Lexeme.token ++ ts) := by
  unfold wordLexeme at hstray ⊢
  split at hstray
  · next hempty => simpa [hempty] using h
  · next hne =>
    rw [if_neg hne]
    exact lexes_word h hne hword hends (noStray_cons.mp hstray).1

/-- Characters without strays are the sequence of the tokens that they are cut into. -/
theorem lexes_scanFrom (start : Nat) (word cs : List Char)
    (hword : ∀ c ∈ word, Token.isNameChar c = true)
    (h : NoStray ((scanFrom start word cs).map Lexeme.token)) :
    Lexes (word ++ cs) ((scanFrom start word cs).map Lexeme.token) := by
  -- `word` is what has been read of a name that has not ended yet
  induction start, word, cs using scanFrom_induction with
  | nil start word =>
    rw [scanFrom] at h ⊢
    simpa using lexes_wordLexeme .nil start hword endsName_nil h
  | nameChar start word c cs hc ih =>
    rw [scanFrom_nameChar hc] at h ⊢
    simpa using ih (by simpa [or_imp, forall_and] using ⟨hword, hc⟩) h
  | separator start word c cs hname hc ih =>
    rw [scanFrom_separator hname hc, List.map_append, noStray_append] at h
    rw [scanFrom_separator hname hc, List.map_append]
    have hrest : Lexes (c :: cs) _ := .separator (isSeparator_iff.mp hc) (ih (by simp) h.2)
    exact lexes_wordLexeme hrest start hword (endsName_cons hname) h.1
  | arrow start word cs ih =>
    rw [scanFrom_arrow, List.map_append, List.map_cons, noStray_append, noStray_cons] at h
    rw [scanFrom_arrow, List.map_append, List.map_cons]
    have hrest := Lexes.arrow (ih (by simp) h.2.2)
    exact lexes_wordLexeme hrest start hword (endsName_cons (by decide)) h.1
  | sign start word c cs hname hc harrow ih =>
    rw [scanFrom_sign hname hc harrow, List.map_append, List.map_cons, noStray_append,
      noStray_cons] at h
    rw [scanFrom_sign hname hc harrow, List.map_append, List.map_cons]
    have hrest := Lexes.sign (mem_signs_ofSign h.2.1) (ih (by simp) h.2.2)
    exact lexes_wordLexeme hrest start hword (endsName_cons hname) h.1

/-- Characters are a sequence of tokens in at most one way: the way that they are cut, if that
leaves no strays. -/
theorem lexes_iff : Lexes cs ts ↔ tokenize cs = ts ∧ NoStray ts := by
  constructor
  · exact fun h => ⟨h.tokenize_eq, h.noStray⟩
  · rintro ⟨rfl, hstray⟩
    exact lexes_scanFrom 0 [] cs (by simp) hstray

end Lexing

/-! ### The grammar -/

namespace Grammar

/-- The levels at which formulas are derived, from the loosest to the tightest. -/
inductive Level where
  | implication
  | disjunction
  | conjunction
  | unary

/-- The level as a number. -/
def Level.rank : Level → Nat
  | .implication => 1
  | .disjunction => 2
  | .conjunction => 3
  | .unary => 4

theorem Level.rank_injective : Function.Injective Level.rank := by
  intro level level' h
  cases level <;> cases level' <;> simp [rank] at h ⊢

/-- Whether tokens are an argument list, perhaps left out if there are no arguments. -/
inductive ArgumentList : List (List Token) → List Token → Prop
  | omitted : ArgumentList [] []
  | enclosed (args : List (List Token)) : ArgumentList args (argumentTokens args)

/-- Whether tokens derive a term where the names in `scope` are bound. A name without arguments is a
variable just if it is bound. -/
inductive DerivesTerm (scope : List String) : List Token → Term → Prop
  | bound {x : String} {ts : List Token} (hts : ArgumentList [] ts) (hscope : x ∈ scope) :
      DerivesTerm scope (.name x :: ts) (.var x)
  | function {f : String} {args : List (List Token × Term)} {ts : List Token}
      (hargs : ∀ arg ∈ args, DerivesTerm scope arg.1 arg.2)
      (hts : ArgumentList (args.map Prod.fst) ts) (hscope : args = [] → f ∉ scope) :
      DerivesTerm scope (.name f :: ts) (.fn f (args.map Prod.snd))

/-- Whether tokens derive a formula at a level, where the names in `scope` are bound and the tokens
`rest` follow. -/
inductive Derives : (scope : List String) → Level → (ts rest : List Token) → Term → Prop
  /-- Implication groups to the right. -/
  | implies {scope : List String} {ts us rest : List Token} {l r : Term}
      (hl : Derives scope .disjunction ts (.connective .implies :: (us ++ rest)) l)
      (hr : Derives scope .implication us rest r) :
      Derives scope .implication (ts ++ .connective .implies :: us) rest (.binary .implies l r)
  | ofDisjunction {scope : List String} {ts rest : List Token} {t : Term}
      (h : Derives scope .disjunction ts rest t) : Derives scope .implication ts rest t
  /-- Disjunction groups to the left. -/
  | or {scope : List String} {ts us rest : List Token} {l r : Term}
      (hl : Derives scope .disjunction ts (.connective .or :: (us ++ rest)) l)
      (hr : Derives scope .conjunction us rest r) :
      Derives scope .disjunction (ts ++ .connective .or :: us) rest (.binary .or l r)
  | ofConjunction {scope : List String} {ts rest : List Token} {t : Term}
      (h : Derives scope .conjunction ts rest t) : Derives scope .disjunction ts rest t
  /-- Conjunction groups to the left. -/
  | and {scope : List String} {ts us rest : List Token} {l r : Term}
      (hl : Derives scope .conjunction ts (.connective .and :: (us ++ rest)) l)
      (hr : Derives scope .unary us rest r) :
      Derives scope .conjunction (ts ++ .connective .and :: us) rest (.binary .and l r)
  | ofUnary {scope : List String} {ts rest : List Token} {t : Term}
      (h : Derives scope .unary ts rest t) : Derives scope .conjunction ts rest t
  | not {scope : List String} {ts rest : List Token} {t : Term}
      (h : Derives scope .unary ts rest t) : Derives scope .unary (.not :: ts) rest (.not t)
  /-- The dot may be left out. The body is the longest there is: no connective follows. -/
  | quantified {scope : List String} (q : Quantifier) (x : String) {dot ts rest : List Token}
      {body : Term} (hdot : dot = [.dot] ∨ dot = [])
      (h : Derives (x :: scope) .implication ts rest body) (hlongest : isLast rest = true) :
      Derives scope .unary (.quantifier q :: .name x :: (dot ++ ts)) rest (.quantified q x body)
  | atom {scope : List String} {p : String} {args : List (List Token × Term)} {ts rest : List Token}
      (hargs : ∀ arg ∈ args, DerivesTerm scope arg.1 arg.2)
      (hts : ArgumentList (args.map Prod.fst) ts) :
      Derives scope .unary (.name p :: ts) rest (.pred p (args.map Prod.snd))
  | parenthesized {scope : List String} {ts rest : List Token} {t : Term}
      (h : Derives scope .implication ts (.rightParen :: rest) t) :
      Derives scope .unary (.leftParen :: (ts ++ [.rightParen])) rest t

/-! ### What tokens derive is what they write, with its names bound -/

variable {scope : List String} {ts rest : List Token} {t : Term}

theorem writesTerm_of_argumentList (f : String) (args : List (List Token × Term))
    (hargs : ∀ arg ∈ args, WritesTerm arg.1 arg.2) (hts : ArgumentList (args.map Prod.fst) ts) :
    WritesTerm (.name f :: ts) (.fn f (args.map Prod.snd)) := by
  generalize hitems : args.map Prod.fst = items at hts
  cases hts with
  | omitted =>
    obtain rfl := List.map_eq_nil_iff.mp hitems
    exact .bare f
  | enclosed items =>
    rw [← hitems]
    exact .applied f args hargs

theorem exists_argumentList_of_writesTerm {f : String} {args : List Term}
    (h : WritesTerm ts (.fn f args)) :
    ∃ (items : List (List Token × Term)) (us : List Token), ts = .name f :: us ∧
      args = items.map Prod.snd ∧ ArgumentList (items.map Prod.fst) us ∧
        ∀ item ∈ items, WritesTerm item.1 item.2 := by
  generalize hfn : Term.fn f args = t at h
  cases h with
  | bare g =>
    obtain ⟨rfl, rfl⟩ : f = g ∧ args = [] := by simpa using hfn
    exact ⟨[], [], rfl, rfl, .omitted, by simp⟩
  | applied g items hitems =>
    obtain ⟨rfl, rfl⟩ : f = g ∧ args = items.map Prod.snd := by simpa using hfn
    exact ⟨items, _, rfl, rfl, .enclosed _, hitems⟩

/-- Arguments that are written one by one are written together. -/
theorem exists_written_args {args : List (List Token × Term)}
    (h : ∀ arg ∈ args, ∃ raw, WritesTerm arg.1 raw ∧ raw.bindNames scope = arg.2) :
    ∃ items : List (List Token × Term), (∀ item ∈ items, WritesTerm item.1 item.2) ∧
      items.map Prod.fst = args.map Prod.fst ∧
        (items.map Prod.snd).map (Term.bindNames scope) = args.map Prod.snd := by
  induction args with
  | nil => exact ⟨[], by simp, rfl, rfl⟩
  | cons arg args ih =>
    obtain ⟨harg, hargs⟩ := List.forall_mem_cons.mp h
    obtain ⟨raw, hwrites, hbind⟩ := harg
    obtain ⟨items, hitems, hfst, hsnd⟩ := ih hargs
    refine ⟨(arg.1, raw) :: items, List.forall_mem_cons.mpr ⟨hwrites, hitems⟩, ?_, ?_⟩
    · simp only [List.map_cons, hfst]
    · simp only [List.map_cons, hbind, hsnd]

theorem exists_writesTerm_of_derivesTerm (h : DerivesTerm scope ts t) :
    ∃ raw, WritesTerm ts raw ∧ raw.bindNames scope = t := by
  induction h with
  | @bound x ts hts hscope =>
    refine ⟨.fn x [], writesTerm_of_argumentList x [] (by simp) hts, ?_⟩
    simp [Term.bindNames_app, hscope]
  | @function f args ts _ hts hscope ih =>
    obtain ⟨items, hitems, hfst, hsnd⟩ := exists_written_args ih
    refine ⟨.fn f (items.map Prod.snd), writesTerm_of_argumentList f items hitems (hfst ▸ hts), ?_⟩
    rw [Term.bindNames_app, if_neg, hsnd]
    rintro ⟨-, hnil, hmem⟩
    have hargs : args.map Prod.snd = [] := by rw [← hsnd, hnil, List.map_nil]
    exact hscope (List.map_eq_nil_iff.mp hargs) hmem

/-- Arguments are derived as they are written, with their names bound. -/
theorem exists_derived_args {items : List (List Token × Term)}
    (h : ∀ item ∈ items, DerivesTerm scope item.1 (item.2.bindNames scope)) :
    ∃ args : List (List Token × Term), (∀ arg ∈ args, DerivesTerm scope arg.1 arg.2) ∧
      args.map Prod.fst = items.map Prod.fst ∧
        args.map Prod.snd = (items.map Prod.snd).map (Term.bindNames scope) := by
  refine ⟨items.map fun item => (item.1, item.2.bindNames scope), List.forall_mem_map.mpr h, ?_, ?_⟩
  · rw [List.map_map]
    rfl
  · rw [List.map_map, List.map_map]
    rfl

theorem derivesTerm_fn (f : String) (items : List (List Token × Term)) {us : List Token}
    (hus : ArgumentList (items.map Prod.fst) us)
    (hitems : ∀ item ∈ items, DerivesTerm scope item.1 (item.2.bindNames scope)) :
    DerivesTerm scope (.name f :: us) ((Term.fn f (items.map Prod.snd)).bindNames scope) := by
  rw [Term.bindNames_app]
  split
  · next hbound =>
    obtain ⟨-, hnil, hmem⟩ := hbound
    obtain rfl := List.map_eq_nil_iff.mp hnil
    exact .bound hus hmem
  · next hfree =>
    obtain ⟨args, hargs, hfst, hsnd⟩ := exists_derived_args hitems
    rw [← hsnd]
    refine .function hargs (hfst ▸ hus) fun hnil hmem => hfree ⟨rfl, ?_, hmem⟩
    simpa [hnil] using hsnd.symm

theorem derivesTerm_of_writesTerm (h : WritesTerm ts t) (scope : List String) :
    DerivesTerm scope ts (t.bindNames scope) := by
  induction h with
  | bare f => exact derivesTerm_fn f [] .omitted (by simp)
  | applied f args _ ih => exact derivesTerm_fn f args (.enclosed _) ih

theorem exists_writes_of_derives {level : Level} (h : Derives scope level ts rest t) :
    ∃ raw, Writes level.rank (isLast rest) ts raw ∧ raw.bindNames scope = t := by
  induction h with
  | implies _ _ ihl ihr =>
    obtain ⟨l, hl, rfl⟩ := ihl
    obtain ⟨r, hr, rfl⟩ := ihr
    exact ⟨.binary .implies l r, .binary .implies hl hr, by rw [Term.bindNames]⟩
  | or _ _ ihl ihr =>
    obtain ⟨l, hl, rfl⟩ := ihl
    obtain ⟨r, hr, rfl⟩ := ihr
    exact ⟨.binary .or l r, .binary .or hl hr, by rw [Term.bindNames]⟩
  | and _ _ ihl ihr =>
    obtain ⟨l, hl, rfl⟩ := ihl
    obtain ⟨r, hr, rfl⟩ := ihr
    exact ⟨.binary .and l r, .binary .and hl hr, by rw [Term.bindNames]⟩
  | ofDisjunction _ ih | ofConjunction _ ih | ofUnary _ ih =>
    obtain ⟨raw, hwrites, hbind⟩ := ih
    exact ⟨raw, .looser (by decide) hwrites, hbind⟩
  | not _ ih =>
    obtain ⟨raw, hwrites, rfl⟩ := ih
    exact ⟨.not raw, .not hwrites, by rw [Term.bindNames]⟩
  | quantified q x hdot _ hlongest ih =>
    obtain ⟨raw, hwrites, rfl⟩ := ih
    rw [hlongest] at hwrites ⊢
    exact ⟨.quantified q x raw, .quantified q x hdot hwrites, by rw [Term.bindNames]⟩
  | @atom scope p args ts rest hargs hts =>
    obtain ⟨items, hitems, hfst, hsnd⟩ :=
      exists_written_args fun arg harg => exists_writesTerm_of_derivesTerm (hargs arg harg)
    have hwrites := writesTerm_of_argumentList p items hitems (hfst ▸ hts)
    refine ⟨.pred p (items.map Prod.snd), .atom hwrites, ?_⟩
    rw [Term.bindNames_pred, hsnd]
  | parenthesized _ ih =>
    obtain ⟨raw, hwrites, hbind⟩ := ih
    exact ⟨raw, .parenthesized hwrites, hbind⟩

theorem derives_of_writes {rank : Nat} {last : Bool} (h : Writes rank last ts t)
    (scope : List String) {level : Level} (hrank : level.rank = rank) (hlast : isLast rest = last) :
    Derives scope level ts rest (t.bindNames scope) := by
  -- below a quantifier the scope grows, and left of a connective something else follows
  induction h generalizing scope level rest with
  | looser hlevel _ ih =>
    subst hrank
    cases level with
    | implication => exact .ofDisjunction (ih scope rfl hlast)
    | disjunction => exact .ofConjunction (ih scope rfl hlast)
    | conjunction => exact .ofUnary (ih scope rfl hlast)
    | unary => exact absurd hlevel (Nat.lt_irrefl 4)
  | atom h =>
    obtain rfl : level = .unary := Level.rank_injective hrank
    obtain ⟨items, us, rfl, rfl, hus, hitems⟩ := exists_argumentList_of_writesTerm h
    obtain ⟨args, hargs, hfst, hsnd⟩ := exists_derived_args fun item hitem =>
      derivesTerm_of_writesTerm (hitems item hitem) scope
    rw [Term.bindNames_pred, ← hsnd]
    exact .atom hargs (hfst ▸ hus)
  | not _ ih =>
    obtain rfl : level = .unary := Level.rank_injective hrank
    rw [Term.bindNames]
    exact .not (ih scope rfl hlast)
  | quantified q x hdot _ ih =>
    obtain rfl : level = .unary := Level.rank_injective hrank
    rw [Term.bindNames]
    exact .quantified q x hdot (ih (x :: scope) rfl hlast) hlast
  | parenthesized _ ih =>
    obtain rfl : level = .unary := Level.rank_injective hrank
    exact .parenthesized (ih scope rfl rfl)
  | binary op _ _ ihl ihr =>
    rw [Term.bindNames]
    cases op with
    | and =>
      obtain rfl : level = .conjunction := Level.rank_injective hrank
      exact .and (ihl scope rfl rfl) (ihr scope rfl hlast)
    | or =>
      obtain rfl : level = .disjunction := Level.rank_injective hrank
      exact .or (ihl scope rfl rfl) (ihr scope rfl hlast)
    | implies =>
      obtain rfl : level = .implication := Level.rank_injective hrank
      exact .implies (ihl scope rfl rfl) (ihr scope rfl hlast)

/-- Tokens derive what they write, with its names bound. -/
theorem derives_iff {level : Level} :
    Derives scope level ts rest t ↔
      ∃ raw, Writes level.rank (isLast rest) ts raw ∧ raw.bindNames scope = t := by
  refine ⟨exists_writes_of_derives, ?_⟩
  rintro ⟨raw, hwrites, rfl⟩
  exact derives_of_writes hwrites scope rfl rfl

/-! ### Tokens of a formula are no strays -/

theorem noStray_argumentTokens {args : List (List Token)} (h : ∀ arg ∈ args, NoStray arg) :
    NoStray (argumentTokens args) := by
  have hargs : NoStray ([.comma].intercalate args) := by
    cases args with
    | nil => simp [NoStray]
    | cons arg args =>
      obtain ⟨harg, hargs⟩ := List.forall_mem_cons.mp h
      rw [intercalate_cons, noStray_append]
      refine ⟨harg, fun text htext => ?_⟩
      obtain ⟨next, hnext, hmem⟩ := List.mem_flatMap.mp htext
      exact hargs next hnext text (by simpa using hmem)
  have hclose : NoStray [.rightParen] := by simp [NoStray]
  exact noStray_cons.mpr ⟨by simp, noStray_append.mpr ⟨hargs, hclose⟩⟩

theorem noStray_of_writesTerm (h : WritesTerm ts t) : NoStray ts := by
  induction h with
  | bare f => simp [NoStray]
  | applied f args _ ih =>
    exact noStray_cons.mpr ⟨by simp, noStray_argumentTokens (List.forall_mem_map.mpr ih)⟩

theorem noStray_of_writes {rank : Nat} {last : Bool} (h : Writes rank last ts t) : NoStray ts := by
  induction h with
  | looser _ _ ih => exact ih
  | atom h => exact noStray_of_writesTerm h
  | not _ ih => exact noStray_cons.mpr ⟨by simp, ih⟩
  | quantified q x hdot _ ih =>
    rcases hdot with rfl | rfl <;> simpa [noStray_cons] using ih
  | parenthesized _ ih => simpa [noStray_cons, noStray_append, NoStray] using ih
  | binary op _ _ ihl ihr => simpa [noStray_cons, noStray_append] using ⟨ihl, ihr⟩

end Grammar

/-! ### What is read -/

/-- A text is read as a formula just if it is a sequence of tokens that derives the formula, with no
name bound at the outset and nothing left after it. -/
theorem Formula.parse_eq_ok_iff_derives {text : String} {φ : Term} :
    Formula.parse text = .ok φ ↔
      ∃ ts, Lexes text.toList ts ∧ Grammar.Derives [] .implication ts [] φ := by
  rw [Formula.parse_eq_ok_iff]
  constructor
  · rintro ⟨raw, hwrites, hbind⟩
    exact ⟨_, lexes_iff.mpr ⟨rfl, Grammar.noStray_of_writes hwrites⟩,
      Grammar.derives_iff.mpr ⟨raw, hwrites, hbind⟩⟩
  · rintro ⟨ts, hlexes, hderives⟩
    obtain rfl := hlexes.tokenize_eq
    exact Grammar.derives_iff.mp hderives

/-- A quantifier takes in all that follows it, also below a negation, and a bound name is a variable
with an empty argument list too. -/
example : Formula.parse "~∀x P(x) & Q(x())" = .ok (.not (.quantified .universal "x"
    (.binary .and (.pred "P" [.var "x"]) (.pred "Q" [.var "x"])))) := by
  decide +kernel

end SignedTableaux
