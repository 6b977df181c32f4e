import SignedTableaux.Proofs.Arena.Links
import SignedTableaux.Proofs.Session.Refusals

/-!
# Breaches

An operation on a store can fail for causes that lie in the store: a rule that is let through but
does not say what it adds, or adds nothing; a goal without a parent; two nodes without a common
ancestor, or that stand for nodes without a formula; a node that stands for none. None of them is
ever met, but that a goal may be given as the source of a rule. The one breach that is left is a
quantifier that binds the empty name, where its rule is applied: no formula that is read from a text
has one.

## Main definitions

* `ArenaSession.application?` — the rule application that a request stands for
* `ArenaSession.Unnamed` — whether a rule application meets a quantifier without a name
* `ArenaSession.Dependable` — what a session reports, and what it does not

## Main results

* `ArenaSession.Stores.dependable` — a session that holds a well-formed tableau is dependable
* `ArenaSession.dependable_after` — what sessions report after every run
-/

namespace SignedTableaux.ArenaSession

/-- The rule application that a request stands for, as a rule, a goal and a source. -/
def application? (S : ArenaSession) : Request → Option (Rule × NodeId × NodeId)
  | .applyRule rule goal source => some (rule, goal, source)
  | .applyRuleNearest rule goal => (S.arena.nearestFormula? goal).map (rule, goal, ·)
  | .close .. | .closeWith .. => none

/-- Whether a rule application meets a quantifier without a name: it passes all checks, and the
formula binds the empty name. -/
def Unnamed (S : ArenaSession) (rule : Rule) (goal source : NodeId) : Prop :=
  rule.drawsName ∧ ∃ signed, S.sourceFormula rule goal source = .ok signed ∧
    ∃ q body, signed.formula = .quantified q "" body

/-- What a session reports, whatever it is asked. -/
structure Dependable (S : ArenaSession) : Prop where
  /-- The store fits together. -/
  check_eq : S.arena.check = .ok ()
  /-- Any two nodes have a common ancestor. -/
  noCommonAncestor_ne : ∀ r a b, (S.perform r).1 ≠ .error (.noCommonAncestor a b)
  /-- Every node stands for a formula, so only the source that is given with a rule may lack one. -/
  noFormula : ∀ r id, (S.perform r).1 = .error (.noFormula id) →
    ∃ rule goal, r = .applyRule rule goal id
  /-- The rules that apply are found for every node. -/
  applicableRules : ∀ id e, S.applicableRules id = .error e → e = .unknownNode id
  /-- The only breach is a quantifier without a name. -/
  invariant_iff : ∀ r breach, (S.perform r).1 = .error (.invariant breach) ↔
    ∃ rule goal source, S.application? r = some (rule, goal, source) ∧
      S.Unnamed rule goal source ∧ breach = .unnamedQuantifier rule

namespace Stores

variable {S : ArenaSession} {s : Session}

theorem application?_eq (h : S.Stores s) (r : Request) : S.application? r = s.application? r := by
  cases r with
  | applyRule rule goal source => rfl
  | applyRuleNearest rule goal =>
    rw [application?, h.holds.nearestFormula?_eq h.wellFormed, Option.map_map]
    rfl
  | close | closeWith => rfl

theorem unnamed_iff (h : S.Stores s) (rule : Rule) (goal source : NodeId) :
    S.Unnamed rule goal source ↔ s.Unnamed rule goal source := by
  rw [Unnamed, h.sourceFormula_eq, Session.Unnamed]
  refine and_congr_right fun _ => ?_
  cases s.sourceEntry rule goal source <;> simp [Except.map]

/-- A session that holds a well-formed tableau is dependable. -/
theorem dependable (h : S.Stores s) : S.Dependable where
  check_eq := h.holds.check_eq h.wellFormed
  noCommonAncestor_ne r a b := by
    rw [(h.perform r).1]
    exact Session.noCommonAncestor_ne h.wellFormed a b
  noFormula r id herror := by
    rw [(h.perform r).1] at herror
    exact Session.eq_applyRule_of_noFormula h.wellFormed herror
  applicableRules id e herror := by
    rw [h.applicableRules_eq] at herror
    refine Session.entryFor_error h.wellFormed ?_
    simpa [Session.applicableRules, pure, Except.pure] using herror
  invariant_iff r breach := by
    rw [(h.perform r).1, Session.invariant_iff_unnamed h.wellFormed, h.application?_eq]
    simp only [h.unnamed_iff]

end Stores

theorem exists_formula_of_start {text : String} {S : ArenaSession} (h : start text = .ok S) :
    ∃ φ, Formula.parse text = .ok φ ∧ S = ofFormula φ := by
  unfold start at h
  split at h
  · next φ hparse => exact ⟨φ, hparse, (Except.ok.inj h).symm⟩
  · cases h

/-- Whatever a session was asked to do, it reports no cause that lies in the store, but for a goal
that is given as a source and for a quantifier of the formula that has no name. A session that
starts from a text never meets the latter. -/
theorem dependable_after :
    (∀ φ rs, ((ofFormula φ).after rs).Dependable) ∧
      ∀ text S, start text = .ok S → ∀ rs, (S.after rs).Dependable ∧
        ∀ r breach, ((S.after rs).perform r).1 ≠ .error (.invariant breach) := by
  refine ⟨fun φ rs => (stores_after φ rs).dependable, fun text S hstart rs => ?_⟩
  obtain ⟨φ, hparse, rfl⟩ := exists_formula_of_start hstart
  have hstores := stores_after φ rs
  refine ⟨hstores.dependable, fun r breach herror => ?_⟩
  obtain ⟨rule, goal, source, -, hunnamed, -⟩ :=
    (hstores.dependable.invariant_iff r breach).mp herror
  exact Session.not_unnamed_after (Formula.legible_of_parse hparse).1.hasUnnamedBinder_eq rs
    ((hstores.unnamed_iff rule goal source).mp hunnamed)

/-- A goal is refused as the source of a rule in a session for a text, and the rule for an unnamed
quantifier in a session for a formula that no text stands for. -/
theorem dependable_oneInstance :
    start "(forall x. P(x)) -> P(a)" = .ok (ofFormula Session.oneInstance) ∧
      (((ofFormula Session.oneInstance).after [.applyRule .alpha 1 0]).perform
        (.applyRule .gamma 3 3)).1 = .error (.noFormula 3) ∧
      ((ofFormula Session.oneInstance).after [.applyRule .alpha 1 0]).Dependable ∧
      (∀ r breach, (((ofFormula Session.oneInstance).after [.applyRule .alpha 1 0]).perform r).1 ≠
        .error (.invariant breach)) ∧
      (((ofFormula Session.unnamedBinder).after [.applyRule .alpha 1 0]).perform
        (.applyRuleNearest .gamma 2)).1 = .error (.invariant (.unnamedQuantifier .gamma)) ∧
      ((ofFormula Session.unnamedBinder).after [.applyRule .alpha 1 0]).Dependable := by
  have hstart : start "(forall x. P(x)) -> P(a)" = .ok (ofFormula Session.oneInstance) := by
    decide +kernel
  obtain ⟨hformula, htext⟩ := dependable_after
  obtain ⟨hdependable, hbreach⟩ := htext _ _ hstart [.applyRule .alpha 1 0]
  exact ⟨hstart, by decide +kernel, hdependable, hbreach, by decide +kernel,
    hformula Session.unnamedBinder [.applyRule .alpha 1 0]⟩

end SignedTableaux.ArenaSession
