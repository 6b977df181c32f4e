import SignedTableaux.Proofs.Session.Atomicity
import SignedTableaux.Proofs.Session.Legibility
import SignedTableaux.Proofs.Tableau.CommonAncestor

/-!
# Refusals

Some causes of a refusal do not lie in what was asked for but in the tableau: two nodes without a
common ancestor, a node that stands for no entry, a quantifier without a name. In a tableau that a
session can reach all nodes are below one root, which holds an entry, so the first two are never
reported, but for a goal that is given as the source of a rule. The third is reported just where a
quantifier of the formula to be proved binds the empty name and its rule is applied, which no
formula that is read from a text has.

## Main definitions

* `ProofError.isInternal` — whether a cause lies in the tableau
* `Session.application?` — the rule application that a request stands for
* `Session.Unnamed` — whether a rule application meets a quantifier without a name

## Main results

* `Session.entryFor_error`, `Session.closeWith_not_internal` — nodes stand for entries, and closures
  are not refused for a cause in the tableau
* `Session.applyRule_internal` — the two causes in the tableau for which a rule is refused
* `Session.noCommonAncestor_ne`, `Session.eq_applyRule_of_noFormula`,
  `Session.invariant_iff_unnamed` — which of these causes a request meets
* `Session.not_unnamed_after` — names of quantifiers in the course of a run
-/

namespace SignedTableaux

/-! ### Guards -/

@[simp] theorem bind_eq_error {ε α β : Type} {x : Except ε α} {f : α → Except ε β} {e : ε} :
    (x >>= f) = .error e ↔ x = .error e ∨ ∃ a, x = .ok a ∧ f a = .error e := by
  cases x <;> simp [bind, Except.bind]

@[simp] theorem mapError_eq_error {ε ε' α : Type} {x : Except ε α} {f : ε → ε'} {e : ε'} :
    x.mapError f = .error e ↔ ∃ e', x = .error e' ∧ f e' = e := by
  cases x <;> simp [Except.mapError]

@[simp] theorem require_eq_error {condition : Prop} [Decidable condition] {e e' : ProofError} :
    require condition e = .error e' ↔ ¬ condition ∧ e = e' := by
  by_cases h : condition <;> simp [require, h]

@[simp] theorem orFail_eq_error {α : Type} {a : Option α} {e e' : ProofError} :
    orFail a e = .error e' ↔ a = none ∧ e = e' := by
  cases a <;> simp [orFail]

/-- Whether the cause of a refusal lies in the tableau. -/
def ProofError.isInternal : ProofError → Bool
  | .noCommonAncestor .. | .noFormula _ | .invariant _ => true
  | _ => false

/-! ### Quantifiers without a name -/

/-- The name that a decomposed quantifier binds. -/
def Decomposition.bound? : Decomposition → Option String
  | .alpha .. | .beta .. => none
  | .gamma _ x _ | .delta _ x _ => some x

/-- A rule fails only for want of a name. -/
theorem Decomposition.expand_error_iff {d : Decomposition} {scope : List String}
    {names : NameSupply} {e : ProofError} :
    (d.expand scope names).1 = .error e ↔
      d.bound? = some "" ∧ e = .invariant (.unnamedQuantifier d.rule) := by
  cases d with
  | alpha first others => simp [expand, bound?]
  | beta left right => simp [expand, bound?]
  | gamma sign x body => by_cases hx : x = "" <;> simp [expand, bound?, rule, hx, eq_comm]
  | delta sign x body => by_cases hx : x = "" <;> simp [expand, bound?, rule, hx, eq_comm]

theorem Signed.bound?_eq_some_iff {s : Signed} {d : Decomposition} {x : String}
    (h : s.decomposition? = some d) :
    d.bound? = some x ↔ ∃ q body, s.formula = .quantified q x body := by
  obtain ⟨sign, t⟩ := s
  cases t with
  | app k f args => simp [decomposition?] at h
  | var y => simp [decomposition?] at h
  | not t =>
    obtain rfl := Option.some.inj h
    simp [Decomposition.bound?]
  | binary c l r =>
    cases sign <;> cases c <;> obtain rfl := Option.some.inj h <;> simp [Decomposition.bound?]
  | quantified q y body =>
    cases sign <;> cases q <;> obtain rfl := Option.some.inj h <;> simp [Decomposition.bound?]

theorem Term.hasUnnamedBinder_iff {t : Term} : t.hasUnnamedBinder ↔ "" ∈ t.boundNames := by
  induction t with
  | app k f args ih =>
    rw [hasUnnamedBinder, hasUnnamedBinderList_eq_any, List.any_eq_true, mem_boundNames_app]
    exact exists_congr fun arg => and_congr_right (ih arg)
  | var x => simp [hasUnnamedBinder]
  | not t ih => simpa [hasUnnamedBinder] using ih
  | binary c l r ihl ihr => simp [hasUnnamedBinder, ihl, ihr]
  | quantified q x body ih =>
    rw [hasUnnamedBinder, Bool.or_eq_true, beq_iff_eq, ih, mem_boundNames_quantified]
    exact or_congr_left eq_comm

namespace Session

variable {s : Session} {r : Request} {rule : Rule} {goal source : NodeId} {e : ProofError}

/-! ### Nodes and their entries -/

theorem entryFor_eq_ok_iff {id : NodeId} {entry : Entry} (hnodup : s.tableau.ids.Nodup) :
    s.entryFor id = .ok entry ↔ s.tableau.nearest? id = some entry := by
  simp only [entryFor, node, bind_eq_ok, orFail_eq_ok]
  refine ⟨fun ⟨_, _, hentry⟩ => hentry, fun hentry => ?_⟩
  obtain ⟨p, hp, -⟩ : ∃ p, s.tableau.spot? id = some p ∧ p.branch.head? = some entry := by
    simpa [Tableau.nearest?, Tableau.branch?_eq, Option.bind_eq_some_iff] using hentry
  obtain ⟨hmem, rfl⟩ := Tableau.mem_of_spot?_eq_some hp
  obtain ⟨n, hn, -⟩ := Tableau.exists_node?_of_mem_spots hnodup hmem
  exact ⟨n, hn, hentry⟩

/-- Every node stands for an entry. -/
theorem entryFor_error {id : NodeId} (hformed : s.tableau.WellFormed)
    (h : s.entryFor id = .error e) : e = .unknownNode id := by
  simp only [entryFor, node, bind_eq_error, orFail_eq_error, orFail_eq_ok] at h
  rcases h with ⟨-, rfl⟩ | ⟨n, hn, hnone, -⟩
  · rfl
  · obtain ⟨p, hp, -⟩ := Tableau.exists_spot_of_node? hformed.numbered.nodup hn
    obtain ⟨hmem, rfl⟩ := Tableau.mem_of_spot?_eq_some hp
    obtain ⟨entry, hentry⟩ := hformed.exists_nearest hmem
    rw [hentry] at hnone
    cases hnone

/-- A closure is never refused for a cause in the tableau. -/
theorem closeWith_not_internal {a b : NodeId} {σ : Substitution} (hformed : s.tableau.WellFormed)
    (h : (s.closeWith a b σ).1 = .error e) : e.isInternal = false := by
  have hclosure : s.closureAt a b σ = .error e := by
    unfold closeWith at h
    split at h
    · next heq => rwa [Except.error.inj h] at heq
    · cases h
  simp only [closureAt, bind_eq_error, orFail_eq_error, require_eq_error, mapError_eq_error, pure,
    Except.pure, reduceCtorEq, and_false, or_false, exists_false] at hclosure
  rcases hclosure with hleft | ⟨left, hleft, hright | ⟨right, hright, ⟨-, rfl⟩ | ⟨-, -, hclosure⟩⟩⟩
  · rw [entryFor_error hformed hleft]
    rfl
  · rw [entryFor_error hformed hright]
    rfl
  · rfl
  · rcases hclosure with ⟨hnone, -⟩ | ⟨-, -, ⟨-, -, rfl⟩ | ⟨-, -, -, rfl⟩⟩
    · obtain ⟨above, hp⟩ := exists_mem_spots_of_entryFor hleft
      obtain ⟨above', hq⟩ := exists_mem_spots_of_entryFor hright
      obtain ⟨k, hk⟩ := hformed.exists_commonAncestor hp hq
      rw [hk] at hnone
      cases hnone
    · rfl
    · rfl

theorem close_not_internal {a b : NodeId} {text : String} (hformed : s.tableau.WellFormed)
    (h : (s.close a b text).1 = .error e) : e.isInternal = false := by
  unfold close at h
  split at h
  · next e' heq =>
    obtain rfl := Except.error.inj h
    simp only [closingSubstitution, node, bind_eq_error, orFail_eq_error, mapError_eq_error] at heq
    rcases heq with ⟨-, rfl⟩ | ⟨-, -, ⟨-, rfl⟩ | ⟨-, -, -, -, rfl⟩⟩ <;> rfl
  · exact closeWith_not_internal hformed h

/-! ### Rule applications -/

/-- The rule application that a request stands for, as a rule, a goal and a source. -/
def application? (s : Session) : Request → Option (Rule × NodeId × NodeId)
  | .applyRule rule goal source => some (rule, goal, source)
  | .applyRuleNearest rule goal => (s.tableau.nearest? goal).map fun entry => (rule, goal, entry.id)
  | .close .. | .closeWith .. => none

/-- Whether a rule application meets a quantifier without a name: it passes all checks, and the
entry binds the empty name. -/
def Unnamed (s : Session) (rule : Rule) (goal source : NodeId) : Prop :=
  rule.drawsName ∧ ∃ entry, s.sourceEntry rule goal source = .ok entry ∧
    ∃ q body, entry.signed.formula = .quantified q "" body

/-- The only cause in the tableau for which there is no source is that it is a goal. -/
theorem sourceEntry_internal (h : s.sourceEntry rule goal source = .error e) (he : e.isInternal) :
    e = .noFormula source ∧ ∃ n, s.tableau.node? source = some n ∧ n.asEntry = none := by
  simp only [sourceEntry, node, bind_eq_error, orFail_eq_error, orFail_eq_ok, require_eq_error,
    pure, Except.pure, reduceCtorEq, and_false, or_false, exists_false] at h
  -- the checks in order: first those of the goal, then those of the source, then those of both
  rcases h with ⟨-, rfl⟩ | ⟨_, _, ⟨-, rfl⟩ | ⟨_, _, ⟨-, rfl⟩ | ⟨_, _, h⟩⟩⟩
  · cases he
  · cases he
  · cases he
  · rcases h with ⟨-, rfl⟩ | ⟨n, hn, ⟨hnone, rfl⟩ | ⟨_, _, h⟩⟩
    · cases he
    · exact ⟨rfl, n, hn, hnone⟩
    · rcases h with ⟨-, rfl⟩ | ⟨_, _, ⟨-, rfl⟩ | ⟨_, _, -, rfl⟩⟩ <;> cases he

/-- Where all checks are passed, a rule is refused just if the quantifier has no name. -/
theorem applyRule_error_iff {entry : Entry} (hnodup : s.tableau.ids.Nodup)
    (h : s.sourceEntry rule goal source = .ok entry) :
    (s.applyRule rule goal source).1 = .error e ↔
      (∃ q body, entry.signed.formula = .quantified q "" body) ∧
        e = .invariant (.unnamedQuantifier rule) := by
  obtain ⟨-, -, -, -, hrule, -⟩ := exists_above_of_sourceEntry hnodup h
  obtain ⟨d, hd, rfl⟩ := Option.map_eq_some_iff.mp hrule
  have hfails : (d.expand (s.tableau.freeVars goal) s.names).1 = .error e ↔
      (∃ q body, entry.signed.formula = .quantified q "" body) ∧
        e = .invariant (.unnamedQuantifier d.rule) := by
    rw [Decomposition.expand_error_iff, Signed.bound?_eq_some_iff hd]
  rw [← hfails, applyRule, h]
  simp only [Rule.expand_of_decomposition? hd]
  rcases d.expand (s.tableau.freeVars goal) s.names with ⟨_ | _, names⟩ <;> simp

/-- The two causes in the tableau for which a rule is refused. -/
theorem applyRule_internal (hnodup : s.tableau.ids.Nodup)
    (h : (s.applyRule rule goal source).1 = .error e) (he : e.isInternal) :
    (e = .noFormula source ∧ ∃ n, s.tableau.node? source = some n ∧ n.asEntry = none) ∨
      e = .invariant (.unnamedQuantifier rule) ∧ s.Unnamed rule goal source := by
  cases hsource : s.sourceEntry rule goal source with
  | error e' =>
    obtain rfl : e' = e := by simpa [applyRule, hsource] using h
    exact .inl (sourceEntry_internal hsource he)
  | ok entry =>
    obtain ⟨⟨q, body, hformula⟩, rfl⟩ := (applyRule_error_iff hnodup hsource).mp h
    obtain ⟨-, -, -, -, hrule, -⟩ := exists_above_of_sourceEntry hnodup hsource
    obtain ⟨d, hd, rfl⟩ := Option.map_eq_some_iff.mp hrule
    refine .inr ⟨rfl, ?_, entry, hsource, q, body, hformula⟩
    have hof : d.IsOf entry.signed.formula := Signed.isOf_of_decomposition? hd
    rw [hformula] at hof
    cases hof with
    | quantified _ hrule => exact hrule

theorem Unnamed.applyRule_eq (h : s.Unnamed rule goal source) (hnodup : s.tableau.ids.Nodup) :
    (s.applyRule rule goal source).1 = .error (.invariant (.unnamedQuantifier rule)) := by
  obtain ⟨-, entry, hsource, hformula⟩ := h
  exact (applyRule_error_iff hnodup hsource).mpr ⟨hformula, rfl⟩

/-! ### Requests -/

theorem perform_of_application? (hnodup : s.tableau.ids.Nodup)
    (h : s.application? r = some (rule, goal, source)) :
    (s.perform r).1 = (s.applyRule rule goal source).1.map .newGoals := by
  cases r with
  | applyRule rule' goal' source' =>
    obtain ⟨rfl, rfl, rfl⟩ : rule' = rule ∧ goal' = goal ∧ source' = source := by
      simpa [application?] using h
    rfl
  | applyRuleNearest rule' goal' =>
    obtain ⟨entry, hentry, heq⟩ := Option.map_eq_some_iff.mp h
    obtain ⟨rfl, rfl, rfl⟩ : rule' = rule ∧ goal' = goal ∧ entry.id = source := by simpa using heq
    rw [perform, applyRuleNearest, (entryFor_eq_ok_iff hnodup).mpr hentry]
    rfl
  | close | closeWith => cases h

/-- A request that is refused for a cause in the tableau stands for a rule application. -/
theorem exists_application_of_internal (hformed : s.tableau.WellFormed)
    (h : (s.perform r).1 = .error e) (he : e.isInternal) :
    ∃ rule goal source, s.application? r = some (rule, goal, source) ∧
      (s.applyRule rule goal source).1 = .error e := by
  cases r with
  | applyRule rule goal source => exact ⟨rule, goal, source, rfl, by simpa [perform] using h⟩
  | applyRuleNearest rule goal =>
    cases hentry : s.entryFor goal with
    | error e' =>
      obtain rfl : e' = e := by simpa [perform, applyRuleNearest, hentry] using h
      rw [entryFor_error hformed hentry] at he
      cases he
    | ok entry =>
      have hnearest := (entryFor_eq_ok_iff hformed.numbered.nodup).mp hentry
      refine ⟨rule, goal, entry.id, by rw [application?, hnearest]; rfl, ?_⟩
      simpa [perform, applyRuleNearest, hentry] using h
  | close a b text =>
    have herror : (s.close a b text).1 = .error e := by simpa [perform] using h
    rw [close_not_internal hformed herror] at he
    cases he
  | closeWith a b σ =>
    have herror : (s.closeWith a b σ).1 = .error e := by simpa [perform] using h
    rw [closeWith_not_internal hformed herror] at he
    cases he

/-- Only the source that is given with a rule can be a goal. -/
theorem eq_applyRule_of_noFormula {id : NodeId} (hformed : s.tableau.WellFormed)
    (h : (s.perform r).1 = .error (.noFormula id)) : ∃ rule goal, r = .applyRule rule goal id := by
  have hnodup := hformed.numbered.nodup
  obtain ⟨rule, goal, source, happlication, herror⟩ := exists_application_of_internal hformed h rfl
  rcases applyRule_internal hnodup herror rfl with ⟨heq, n, hn, hnone⟩ | ⟨heq, -⟩
  · obtain rfl : id = source := ProofError.noFormula.inj heq
    cases r with
    | applyRule rule' goal' source' =>
      obtain ⟨-, -, rfl⟩ : rule' = rule ∧ goal' = goal ∧ source' = id := by
        simpa [application?] using happlication
      exact ⟨rule', goal', rfl⟩
    | applyRuleNearest rule' goal' =>
      obtain ⟨entry, hentry, hid⟩ := Option.map_eq_some_iff.mp happlication
      obtain ⟨-, -, rfl⟩ : rule' = rule ∧ goal' = goal ∧ entry.id = id := by simpa using hid
      obtain ⟨above, hspot⟩ := exists_mem_spots_of_entryFor ((entryFor_eq_ok_iff hnodup).mpr hentry)
      obtain ⟨n', hn', hcontent⟩ := Tableau.exists_node?_of_mem_spots hnodup hspot
      obtain rfl : n' = n := Option.some.inj (hn'.symm.trans hn)
      simp [Node.asEntry, hcontent] at hnone
    | close | closeWith => cases happlication
  · cases heq

/-- Any two nodes have a common ancestor. -/
theorem noCommonAncestor_ne (hformed : s.tableau.WellFormed) (a b : NodeId) :
    (s.perform r).1 ≠ .error (.noCommonAncestor a b) := by
  intro herror
  obtain ⟨_, _, _, -, herror⟩ := exists_application_of_internal hformed herror rfl
  rcases applyRule_internal hformed.numbered.nodup herror rfl with ⟨heq, -⟩ | ⟨heq, -⟩ <;> cases heq

/-- The only breach that a request meets is a quantifier without a name. -/
theorem invariant_iff_unnamed {breach : Breach} (hformed : s.tableau.WellFormed) :
    (s.perform r).1 = .error (.invariant breach) ↔
      ∃ rule goal source, s.application? r = some (rule, goal, source) ∧
        s.Unnamed rule goal source ∧ breach = .unnamedQuantifier rule := by
  have hnodup := hformed.numbered.nodup
  constructor
  · intro h
    obtain ⟨rule, goal, source, happlication, herror⟩ :=
      exists_application_of_internal hformed h rfl
    refine ⟨rule, goal, source, happlication, ?_⟩
    rcases applyRule_internal hnodup herror rfl with ⟨heq, -⟩ | ⟨heq, hunnamed⟩
    · cases heq
    · exact ⟨hunnamed, ProofError.invariant.inj heq⟩
  · rintro ⟨rule, goal, source, happlication, hunnamed, rfl⟩
    rw [perform_of_application? hnodup happlication, hunnamed.applyRule_eq hnodup]
    rfl

/-! ### Runs -/

/-- No rule meets a quantifier without a name in a proof of a formula that has none. -/
theorem not_unnamed_after {φ : Term} (hφ : φ.hasUnnamedBinder = false) (rs : List Request) :
    ¬ ((ofFormula φ).after rs).Unnamed rule goal source := by
  rintro ⟨-, entry, hsource, q, body, hformula⟩
  obtain ⟨above, hgoal, hentry, -⟩ :=
    exists_above_of_sourceEntry (wellNumbered_after φ rs).nodup hsource
  have hmade := (ledger_after φ rs).made_above hgoal hentry
  rw [hformula] at hmade
  have hbound : "" ∈ φ.boundNames := hmade.bound "" (by simp)
  rw [Term.hasUnnamedBinder_iff.mpr hbound] at hφ
  cases hφ

/-- The formula `(forall x. P(x)) -> P(a)`. -/
def oneInstance : Term :=
  .binary .implies (.quantified .universal "x" (.pred "P" [.var "x"])) (.pred "P" [.fn "a" []])

end Session

end SignedTableaux
