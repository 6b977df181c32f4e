import Mathlib.Data.List.Basic
import SignedTableaux.Formula.Token

/-!
# The tokens of a text

How a text is cut into tokens, apart from where they start: a separator vanishes, a sign is a token
by itself, and a run of name characters is one token, if no name character follows.

## Main definitions

* `tokenize` — the tokens of some characters
* `EndsName` — no name character is next
* `IsName` — the texts that are names

## Main results

* `tokenize_name`, `tokenize_sign`, `tokenize_separator`, `tokenize_arrow` — how a text is cut
* `isName_of_mem_tokenize` — the name tokens of a text are names
-/

namespace SignedTableaux

variable {c : Char} {cs word : List Char} {start : Nat}

/-! ### One step of the scan -/

theorem scanFrom_nameChar (h : Token.isNameChar c = true) :
    scanFrom start word (c :: cs) = scanFrom start (word ++ [c]) cs := by
  rw [scanFrom, if_pos h]

theorem scanFrom_separator (h : Token.isNameChar c = false) (hc : Token.isSeparator c = true) :
    scanFrom start word (c :: cs) =
      wordLexeme start word ++ scanFrom (start + word.length + 1) [] cs := by
  simp [scanFrom, h, hc]

theorem scanFrom_arrow :
    scanFrom start word ('-' :: '>' :: cs) = wordLexeme start word ++
      ⟨.connective .implies, start + word.length⟩ :: scanFrom (start + word.length + 2) [] cs := by
  have hname : Token.isNameChar '-' = false := by decide
  have hseparator : Token.isSeparator '-' = false := by decide
  simp [scanFrom, hname, hseparator]

theorem scanFrom_sign (h : Token.isNameChar c = false) (hc : Token.isSeparator c = false)
    (harrow : ∀ cs', c :: cs ≠ '-' :: '>' :: cs') :
    scanFrom start word (c :: cs) = wordLexeme start word ++
      ⟨.ofSign c, start + word.length⟩ :: scanFrom (start + word.length + c.utf8Size) [] cs := by
  rw [scanFrom]
  simp only [h, hc, Bool.false_eq_true, if_false]
  split
  · exact absurd rfl (harrow _)
  · rfl

/-- What the scan meets: the end, a name character, a separator, an arrow or another sign. -/
theorem scanFrom_induction {P : Nat → List Char → List Char → Prop}
    (nil : ∀ start word, P start word [])
    (nameChar : ∀ start word c cs, Token.isNameChar c = true → P start (word ++ [c]) cs →
      P start word (c :: cs))
    (separator : ∀ start word c cs, Token.isNameChar c = false → Token.isSeparator c = true →
      P (start + word.length + 1) [] cs → P start word (c :: cs))
    (arrow : ∀ start word cs, P (start + word.length + 2) [] cs →
      P start word ('-' :: '>' :: cs))
    (sign : ∀ start word c cs, Token.isNameChar c = false → Token.isSeparator c = false →
      (∀ cs', c :: cs ≠ '-' :: '>' :: cs') → P (start + word.length + c.utf8Size) [] cs →
        P start word (c :: cs))
    (start : Nat) (word cs : List Char) : P start word cs := by
  induction start, word, cs using scanFrom.induct with
  | case1 start word => exact nil start word
  | case2 start word c cs h ih => exact nameChar start word c cs h ih
  | case3 start word c cs h here ihsep ihsign =>
    have hname : Token.isNameChar c = false := by simpa using h
    by_cases hsep : Token.isSeparator c = true
    · exact separator start word c cs hname hsep ihsep
    · have hsep : Token.isSeparator c = false := by simpa using hsep
      split at ihsign
      · exact arrow start word _ ihsign
      · next hne =>
        refine sign start word c cs hname hsep (fun cs' heq => ?_) ihsign
        obtain ⟨rfl, rfl⟩ := List.cons.inj heq
        exact hne cs' rfl rfl

/-- The tokens of some characters. -/
def tokenize (cs : List Char) : List Token :=
  (scanFrom 0 [] cs).map Lexeme.token

/-- Where the text starts does not matter. -/
theorem map_token_scanFrom (start start' : Nat) (word cs : List Char) :
    (scanFrom start word cs).map Lexeme.token = (scanFrom start' word cs).map Lexeme.token := by
  have hword (start start' : Nat) (word : List Char) :
      (wordLexeme start word).map Lexeme.token = (wordLexeme start' word).map Lexeme.token := by
    unfold wordLexeme
    split <;> rfl
  induction start, word, cs using scanFrom_induction generalizing start' with
  | nil start word => exact hword start start' word
  | nameChar start word c cs h ih => rw [scanFrom_nameChar h, scanFrom_nameChar h, ih]
  | separator start word c cs h hc ih =>
    rw [scanFrom_separator h hc, scanFrom_separator h hc, List.map_append, List.map_append,
      hword start start', ih]
  | arrow start word cs ih =>
    rw [scanFrom_arrow, scanFrom_arrow]
    simp only [List.map_append, List.map_cons]
    rw [hword start start', ih]
  | sign start word c cs h hc harrow ih =>
    rw [scanFrom_sign h hc harrow, scanFrom_sign h hc harrow]
    simp only [List.map_append, List.map_cons]
    rw [hword start start', ih]

/-! ### How a text is cut -/

/-- Whether no name character is next, so that a name before ends here. -/
def EndsName (cs : List Char) : Prop :=
  ∀ c ∈ cs.head?, Token.isNameChar c = false

theorem endsName_nil : EndsName [] := by
  simp [EndsName]

theorem endsName_cons (h : Token.isNameChar c = false) : EndsName (c :: cs) := by
  simpa [EndsName] using h

@[simp] theorem tokenize_nil : tokenize [] = [] := by
  simp [tokenize, scanFrom, wordLexeme]

theorem tokenize_separator (h : Token.isNameChar c = false) (hc : Token.isSeparator c = true) :
    tokenize (c :: cs) = tokenize cs := by
  rw [tokenize, scanFrom_separator h hc]
  exact map_token_scanFrom ..

theorem tokenize_arrow : tokenize ('-' :: '>' :: cs) = .connective .implies :: tokenize cs := by
  rw [tokenize, scanFrom_arrow]
  exact congrArg (Token.connective .implies :: ·) (map_token_scanFrom ..)

theorem tokenize_sign (h : Token.isNameChar c = false) (hc : Token.isSeparator c = false)
    (harrow : ∀ cs', c :: cs ≠ '-' :: '>' :: cs') :
    tokenize (c :: cs) = .ofSign c :: tokenize cs := by
  rw [tokenize, scanFrom_sign h hc harrow]
  exact congrArg (Token.ofSign c :: ·) (map_token_scanFrom ..)

theorem scanFrom_append (start : Nat) (before : List Char)
    (h : ∀ c ∈ word, Token.isNameChar c = true) :
    scanFrom start before (word ++ cs) = scanFrom start (before ++ word) cs := by
  induction word generalizing before with
  | nil => simp
  | cons c word ih =>
    obtain ⟨hc, hword⟩ := List.forall_mem_cons.mp h
    rw [List.cons_append, scanFrom_nameChar hc, ih _ hword, List.append_assoc,
      List.singleton_append]

/-- A name ends where no name character follows. -/
theorem map_token_scanFrom_of_endsName (start : Nat) (word : List Char) (h : EndsName cs) :
    (scanFrom start word cs).map Lexeme.token =
      (wordLexeme start word).map Lexeme.token ++ tokenize cs := by
  induction start, word, cs using scanFrom_induction with
  | nil start word => rw [scanFrom, tokenize_nil, List.append_nil]
  | nameChar start word c cs hc _ => simp [EndsName, hc] at h
  | separator start word c cs hname hc _ =>
    rw [scanFrom_separator hname hc, tokenize_separator hname hc, List.map_append]
    exact congrArg _ (map_token_scanFrom ..)
  | arrow start word cs _ =>
    rw [scanFrom_arrow, tokenize_arrow, List.map_append, List.map_cons]
    exact congrArg (_ ++ Token.connective .implies :: ·) (map_token_scanFrom ..)
  | sign start word c cs hname hc harrow _ =>
    rw [scanFrom_sign hname hc harrow, tokenize_sign hname hc harrow, List.map_append,
      List.map_cons]
    exact congrArg (_ ++ Token.ofSign c :: ·) (map_token_scanFrom ..)

theorem tokenize_word (h : word ≠ []) (hword : ∀ c ∈ word, Token.isNameChar c = true)
    (hcs : EndsName cs) : tokenize (word ++ cs) = .ofWord word :: tokenize cs := by
  rw [tokenize, scanFrom_append 0 [] hword, List.nil_append,
    map_token_scanFrom_of_endsName 0 word hcs, wordLexeme, if_neg h]
  rfl

/-! ### Names -/

/-- Whether a text is a name: letters, digits and underscores, with no digit at the start, and not
the keyword of a quantifier. -/
structure IsName (x : String) : Prop where
  ne_nil : x.toList ≠ []
  first : ∀ c ∈ x.toList.head?, c.isDigit = false
  chars : ∀ c ∈ x.toList, c.isAlphanum = true ∨ c = '_'
  ne_forall : x ≠ "forall"
  ne_exists : x ≠ "exists"

theorem isNameChar_iff : Token.isNameChar c = true ↔ c.isAlphanum = true ∨ c = '_' := by
  simp [Token.isNameChar]

theorem IsName.ofWord_eq {x : String} (h : IsName x) : Token.ofWord x.toList = .name x := by
  have hdigit : ¬ x.toList.head?.any Char.isDigit = true := by
    rw [Option.any_eq_true]
    rintro ⟨c, hc, hdigit⟩
    simp [h.first c hc] at hdigit
  rw [Token.ofWord, if_neg (mt String.toList_inj.mp h.ne_forall),
    if_neg (mt String.toList_inj.mp h.ne_exists), if_neg hdigit, String.ofList_toList]

theorem isName_of_ofWord_eq {x : String} (hne : word ≠ [])
    (hword : ∀ c ∈ word, Token.isNameChar c = true) (h : Token.ofWord word = .name x) :
    IsName x := by
  unfold Token.ofWord at h
  split_ifs at h with hforall hexists hdigit
  obtain rfl : String.ofList word = x := Token.name.inj h
  refine ⟨?_, ?_, ?_, ?_, ?_⟩
  · rwa [String.toList_ofList]
  · intro c hc
    rw [String.toList_ofList] at hc
    have hhead : word.head? = some c := hc
    simpa [hhead] using hdigit
  · intro c hc
    rw [String.toList_ofList] at hc
    exact isNameChar_iff.mp (hword c hc)
  · exact fun heq => hforall (by rw [← heq, String.toList_ofList])
  · exact fun heq => hexists (by rw [← heq, String.toList_ofList])

theorem tokenize_name {x : String} (h : IsName x) (hcs : EndsName cs) :
    tokenize (x.toList ++ cs) = .name x :: tokenize cs := by
  have hchars : ∀ c ∈ x.toList, Token.isNameChar c = true :=
    fun c hc => isNameChar_iff.mpr (h.chars c hc)
  rw [tokenize_word h.ne_nil hchars hcs, h.ofWord_eq]

theorem ofSign_ne_name (c : Char) (x : String) : Token.ofSign c ≠ .name x := by
  unfold Token.ofSign
  split <;> simp

theorem isName_of_mem_wordLexeme {x : String} (hword : ∀ c ∈ word, Token.isNameChar c = true)
    (hx : .name x ∈ (wordLexeme start word).map Lexeme.token) : IsName x := by
  unfold wordLexeme at hx
  split at hx
  · simp at hx
  · next hne =>
    have hx : Token.ofWord word = .name x := by simpa [eq_comm] using hx
    exact isName_of_ofWord_eq hne hword hx

theorem isName_of_mem_scanFrom {x : String} (hword : ∀ c ∈ word, Token.isNameChar c = true)
    (hx : .name x ∈ (scanFrom start word cs).map Lexeme.token) : IsName x := by
  induction start, word, cs using scanFrom_induction with
  | nil start word => exact isName_of_mem_wordLexeme hword (by rwa [scanFrom] at hx)
  | nameChar start word c cs hc ih =>
    rw [scanFrom_nameChar hc] at hx
    exact ih (by simpa [or_imp, forall_and] using ⟨hword, hc⟩) hx
  | separator start word c cs hname hc ih =>
    rw [scanFrom_separator hname hc, List.map_append, List.mem_append] at hx
    exact hx.elim (isName_of_mem_wordLexeme hword) (ih (by simp))
  | arrow start word cs ih =>
    rw [scanFrom_arrow, List.map_append, List.mem_append, List.map_cons, List.mem_cons] at hx
    rcases hx with hx | hx | hx
    · exact isName_of_mem_wordLexeme hword hx
    · cases hx
    · exact ih (by simp) hx
  | sign start word c cs hname hc harrow ih =>
    rw [scanFrom_sign hname hc harrow, List.map_append, List.mem_append, List.map_cons,
      List.mem_cons] at hx
    rcases hx with hx | hx | hx
    · exact isName_of_mem_wordLexeme hword hx
    · exact absurd hx.symm (ofSign_ne_name c x)
    · exact ih (by simp) hx

/-- The name tokens of a text are names. -/
theorem isName_of_mem_tokenize {x : String} (h : .name x ∈ tokenize cs) : IsName x :=
  isName_of_mem_scanFrom (by simp) h

end SignedTableaux
