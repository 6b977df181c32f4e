import SignedTableaux.Formula.Parse
import SignedTableaux.Proofs.Formula.Completeness
import SignedTableaux.Proofs.Formula.Scanning
import SignedTableaux.Proofs.Term.Names

/-!
# Terms that can be read

A term is legible if its parts stand where the grammar has them, its names are names, its variables
are the names that quantifiers around them bind, and its constants are not. Whatever is read from a
text is a legible formula; so no variable is free in it and no quantifier binds the empty name.

## Main definitions

* `Term.IsObject` — a term that is built from function symbols and variables only
* `Term.Legible` — a term that is well-formed where some names are bound

## Main results

* `Formula.parse_eq_ok_iff` — what is read is what the tokens write, with its names bound
* `Term.legible_bindNames` — what tokens write is legible once its names are bound
* `Formula.legible_of_parse`, `Formula.closed_of_parse` — a formula that is read is legible and
  closed
-/

namespace SignedTableaux

namespace Term

/-- Whether a term is built from function symbols and variables only. -/
inductive IsObject : Term → Prop
  | var (x : String) : IsObject (.var x)
  | fn (f : String) {args : List Term} (hargs : ∀ arg ∈ args, IsObject arg) : IsObject (.fn f args)

/-- Whether a term is well-formed where the names in `scope` are bound: the operands of connectives
and quantifiers are formulas, the arguments of predicates are objects, every name is a name, every
variable is bound, and no constant has a bound name. -/
inductive Legible : (scope : List String) → Term → Prop
  | pred {scope : List String} {p : String} {args : List Term} (hname : IsName p)
      (hobjects : ∀ arg ∈ args, arg.IsObject) (hargs : ∀ arg ∈ args, Legible scope arg) :
      Legible scope (.pred p args)
  | fn {scope : List String} {f : String} {args : List Term} (hname : IsName f)
      (hconstant : args = [] → f ∉ scope) (hargs : ∀ arg ∈ args, Legible scope arg) :
      Legible scope (.fn f args)
  | var {scope : List String} {x : String} (hname : IsName x) (hbound : x ∈ scope) :
      Legible scope (.var x)
  | not {scope : List String} {t : Term} (hformula : t.isFormula = true) (h : Legible scope t) :
      Legible scope (.not t)
  | binary {scope : List String} {op : Connective} {l r : Term} (hleft : l.isFormula = true)
      (hright : r.isFormula = true) (hl : Legible scope l) (hr : Legible scope r) :
      Legible scope (.binary op l r)
  | quantified {scope : List String} {q : Quantifier} {x : String} {body : Term} (hname : IsName x)
      (hformula : body.isFormula = true) (h : Legible (x :: scope) body) :
      Legible scope (.quantified q x body)

/-! ### What legible terms have -/

variable {scope : List String} {t : Term}

theorem Legible.mem_scope (h : Legible scope t) {x : String} (hx : x ∈ t.freeVars) : x ∈ scope := by
  induction h with
  | pred _ _ _ ih | fn _ _ _ ih =>
    obtain ⟨arg, harg, hx⟩ := (mem_freeVars_app ..).mp hx
    exact ih arg harg hx
  | var _ hbound => rwa [mem_freeVars_var.mp hx]
  | not _ _ ih => exact ih (mem_freeVars_not.mp hx)
  | binary _ _ _ _ ihl ihr => exact ((mem_freeVars_binary ..).mp hx).elim ihl ihr
  | quantified _ _ _ ih =>
    obtain ⟨hx, hne⟩ := (mem_freeVars_quantified ..).mp hx
    exact (List.mem_cons.mp (ih hx)).resolve_left hne

theorem Legible.closed (h : Legible [] t) : t.Closed :=
  fun _ hx => absurd (h.mem_scope hx) List.not_mem_nil

theorem hasUnnamedBinderList_eq_any (ts : List Term) :
    hasUnnamedBinderList ts = ts.any hasUnnamedBinder := by
  induction ts with
  | nil => rw [hasUnnamedBinderList, List.any_nil]
  | cons t ts ih => rw [hasUnnamedBinderList, ih, List.any_cons]

theorem Legible.hasUnnamedBinder_eq (h : Legible scope t) : t.hasUnnamedBinder = false := by
  induction h with
  | pred _ _ _ ih | fn _ _ _ ih =>
    rw [hasUnnamedBinder, hasUnnamedBinderList_eq_any, List.any_eq_false]
    exact fun arg harg => by simp [ih arg harg]
  | var _ _ => rw [hasUnnamedBinder]
  | not _ _ ih => rw [hasUnnamedBinder, ih]
  | binary _ _ _ _ ihl ihr => rw [hasUnnamedBinder, ihl, ihr, Bool.or_false]
  | @quantified _ _ x _ hname _ _ ih =>
    have hx : x ≠ "" := fun heq => hname.ne_nil (by rw [heq]; rfl)
    simp [hasUnnamedBinder, ih, hx]

/-! ### Binding the names of what is written -/

theorem bindNamesList_eq_map (scope : List String) (ts : List Term) :
    bindNamesList scope ts = ts.map (bindNames scope) := by
  induction ts with
  | nil => rw [bindNamesList, List.map_nil]
  | cons t ts ih => rw [bindNamesList, ih, List.map_cons]

/-- A constant whose name is in scope becomes a variable. -/
theorem bindNames_app (scope : List String) (k : SymbolKind) (f : String) (args : List Term) :
    (app k f args).bindNames scope =
      if k = .function ∧ args = [] ∧ f ∈ scope then var f
      else app k f (args.map (bindNames scope)) := by
  cases k with
  | predicate => rw [bindNames, bindNamesList_eq_map] <;> simp
  | function =>
    cases args with
    | nil => simp [bindNames]
    | cons arg args => rw [bindNames, bindNamesList_eq_map] <;> simp

theorem bindNames_pred (scope : List String) (p : String) (args : List Term) :
    (pred p args).bindNames scope = pred p (args.map (bindNames scope)) := by
  simp [bindNames_app]

theorem legible_bindNames_fn {f : String} {args : List Term} (hname : IsName f)
    (h : ∀ arg ∈ args, Legible scope (arg.bindNames scope) ∧ (arg.bindNames scope).IsObject) :
    Legible scope ((fn f args).bindNames scope) ∧ ((fn f args).bindNames scope).IsObject := by
  rw [bindNames_app]
  split
  · next hbound => exact ⟨.var hname hbound.2.2, .var f⟩
  · next hfree =>
    constructor
    · refine .fn hname (fun hargs hmem => hfree ⟨rfl, by simpa using hargs, hmem⟩) ?_
      simpa using fun arg harg => (h arg harg).1
    · exact .fn f (by simpa using fun arg harg => (h arg harg).2)

end Term

namespace Grammar

open SignedTableaux.Term

variable {scope : List String} {ts : List Token} {t : Term}

theorem legible_args_of_writesTerm (scope : List String) (h : WritesTerm ts t)
    (hnames : ∀ x, .name x ∈ ts → IsName x) :
    ∃ f args, t = .fn f args ∧ IsName f ∧
      ∀ arg ∈ args, Legible scope (arg.bindNames scope) ∧ (arg.bindNames scope).IsObject := by
  induction h with
  | bare f => exact ⟨f, [], rfl, hnames f (by simp), by simp⟩
  | applied f items _ ih =>
    refine ⟨f, _, rfl, hnames f List.mem_cons_self, ?_⟩
    rw [List.forall_mem_map]
    intro item hitem
    have hsublist := sublist_intercalate .comma (List.mem_map_of_mem (f := Prod.fst) hitem)
    obtain ⟨g, args, hfn, hname, hargs⟩ := ih item hitem fun x hx =>
      hnames x (by simp [argumentTokens, hsublist.subset hx])
    rw [hfn]
    exact legible_bindNames_fn hname hargs

/-- What tokens write is a legible formula once its names are bound. -/
theorem legible_of_writes {level : Nat} {last : Bool} (h : Writes level last ts t)
    (hnames : ∀ x, .name x ∈ ts → IsName x) (scope : List String) :
    Legible scope (t.bindNames scope) ∧ (t.bindNames scope).isFormula = true := by
  induction h generalizing scope with
  | looser _ _ ih => exact ih hnames scope
  | atom h =>
    obtain ⟨p, args, hfn, hname, hargs⟩ := legible_args_of_writesTerm scope h hnames
    obtain ⟨rfl, rfl⟩ : _ = p ∧ _ = args := by simpa using hfn
    rw [bindNames_pred]
    refine ⟨.pred hname ?_ ?_, rfl⟩
    · simpa using fun arg harg => (hargs arg harg).2
    · simpa using fun arg harg => (hargs arg harg).1
  | not _ ih =>
    obtain ⟨hlegible, hformula⟩ := ih (fun x hx => hnames x (by simp [hx])) scope
    rw [bindNames]
    exact ⟨.not hformula hlegible, rfl⟩
  | quantified q x _ _ ih =>
    obtain ⟨hlegible, hformula⟩ := ih (fun y hy => hnames y (by simp [hy])) (x :: scope)
    rw [bindNames]
    exact ⟨.quantified (hnames x (by simp)) hformula hlegible, rfl⟩
  | parenthesized _ ih => exact ih (fun x hx => hnames x (by simp [hx])) scope
  | binary op _ _ ihl ihr =>
    obtain ⟨hl, hleft⟩ := ihl (fun x hx => hnames x (by simp [hx])) scope
    obtain ⟨hr, hright⟩ := ihr (fun x hx => hnames x (by simp [hx])) scope
    rw [bindNames]
    exact ⟨.binary hleft hright hl hr, rfl⟩

end Grammar

/-! ### What is read -/

/-- A text is read if its tokens are. -/
theorem parseWith_eq_ok_iff {α : Type} {p : Parser α} {text : String} {a : α} :
    parseWith p text = .ok a ↔ ∃ rest, p.Reads (tokenize text.toList) a rest := by
  unfold parseWith Parser.Reads tokenize scan
  rcases hresult : p ((scanFrom 0 [] text.toList).map Lexeme.token) with ⟨_ | ⟨b, rest⟩, misses⟩
  · simp [hresult]
  · simp [hresult]

theorem map_eq_ok {ε α β : Type} {x : Except ε α} {f : α → β} {b : β} :
    x.map f = .ok b ↔ ∃ a, x = .ok a ∧ f a = b := by
  cases x <;> simp [Except.map]

@[simp] theorem map_eq_error {ε α β : Type} {x : Except ε α} {f : α → β} {e : ε} :
    x.map f = .error e ↔ x = .error e := by
  cases x <;> simp [Except.map]

namespace Formula

variable {text : String} {φ : Term}

/-- What is read is what the tokens write, with its names bound. -/
theorem parse_eq_ok_iff :
    Formula.parse text = .ok φ ↔
      ∃ t, Grammar.Writes 1 true (tokenize text.toList) t ∧ t.bindNames [] = φ := by
  simp only [Formula.parse, map_eq_ok, parseWith_eq_ok_iff, Grammar.reads_wholeFormula_iff,
    exists_and_left, exists_eq, and_true]

/-- A formula that is read is legible. -/
theorem legible_of_parse (h : Formula.parse text = .ok φ) :
    φ.Legible [] ∧ φ.isFormula = true := by
  obtain ⟨t, hwrites, rfl⟩ := parse_eq_ok_iff.mp h
  exact Grammar.legible_of_writes hwrites (fun _ => isName_of_mem_tokenize) []

/-- A formula that is read is closed. -/
theorem closed_of_parse (h : Formula.parse text = .ok φ) : φ.Closed :=
  (legible_of_parse h).1.closed

end Formula

end SignedTableaux
