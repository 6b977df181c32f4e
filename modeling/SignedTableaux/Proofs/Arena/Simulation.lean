import SignedTableaux.Arena.Session
import SignedTableaux.Proofs.Arena.Growth
import SignedTableaux.Proofs.Session.Run

/-!
# Sessions on a store and sessions on a tree

A session on a store and one on a tree that start from the same formula give the same reply to every
request, whatever was asked before, and go on holding the same tableau and the same names. The links
and marks in the store are only ever changed slot by slot, so this is a statement about these
changes; and the store has ways to fail that the tree does not have, so it also says that none of
them is ever taken.

## Main definitions

* `ArenaSession.Stores` — a session on a store holds what a session on a tree holds

## Main results

* `Rule.yield_eq` — what a rule adds, by both tables
* `ArenaSession.Stores.perform` — one request
* `ArenaSession.stores_after` — a run of requests
-/

namespace SignedTableaux

/-! ### Rules -/

namespace Rule

variable {rule : Rule} {source : Signed}

theorem applies_iff : rule.applies source ↔ source.rule? = some rule := by
  obtain ⟨sign, t⟩ := source
  cases t with
  | app k f args => cases rule <;> simp [applies, Signed.rule?, Signed.decomposition?]
  | var x => cases rule <;> simp [applies, Signed.rule?, Signed.decomposition?]
  | not t => cases rule <;> simp [applies, Signed.rule?, Signed.decomposition?, Decomposition.rule]
  | binary c l r =>
    cases rule <;> cases sign <;> cases c <;>
      simp [applies, Signed.rule?, Signed.decomposition?, Decomposition.rule]
  | quantified q x body =>
    cases rule <;> cases sign <;> cases q <;>
      simp [applies, Signed.rule?, Signed.decomposition?, Decomposition.rule]

theorem filter_applies (source : Signed) :
    Rule.all.filter (·.applies source) = source.rule?.toList := by
  have happlies : (fun rule : Rule => rule.applies source) =
      fun rule => decide (source.rule? = some rule) :=
    funext fun rule => Bool.eq_iff_iff.mpr (applies_iff.trans decide_eq_true_iff.symm)
  rw [happlies]
  rcases source.rule? with _ | rule
  · rfl
  · cases rule <;> rfl

/-- What a decomposition adds is what the rule lists for the formula. -/
theorem fragments_of_decomposition? {d : Decomposition} (scope : List String) (names : NameSupply)
    (h : source.decomposition? = some d) :
    d.rule.fragments source.sign source.formula scope names =
      (d.expand scope names).map (·.map Expansion.yield) id := by
  obtain ⟨sign, t⟩ := source
  cases t with
  | app k f args => simp [Signed.decomposition?] at h
  | var x => simp [Signed.decomposition?] at h
  | not t =>
    obtain rfl := Option.some.inj h
    rfl
  | binary c l r => cases sign <;> cases c <;> obtain rfl := Option.some.inj h <;> rfl
  | quantified q x body =>
    cases sign <;> cases q <;> obtain rfl := Option.some.inj h <;> by_cases hx : x = "" <;>
      simp [Decomposition.rule, fragments, Decomposition.expand, hx, Except.map, Expansion.yield]

/-- Both tables say the same, so no rule is let through that does not say what it adds. -/
theorem yield_eq (rule : Rule) (source : Signed) (scope : List String) (names : NameSupply) :
    rule.yield source scope names =
      (rule.expand source scope names).map (·.map Expansion.yield) id := by
  rw [yield, Rule.expand]
  by_cases happlies : rule.applies source
  · obtain ⟨d, hd, rfl⟩ := Option.map_eq_some_iff.mp (applies_iff.mp happlies)
    rw [if_pos happlies, hd]
    simp only [if_pos]
    exact fragments_of_decomposition? scope names hd
  · rw [if_neg happlies]
    cases hd : source.decomposition? with
    | none => rfl
    | some d =>
      have hne : d.rule ≠ rule := fun heq =>
        happlies (applies_iff.mpr (by rw [Signed.rule?, hd, Option.map_some, heq]))
      simp only [if_neg hne]
      rfl

end Rule

/-! ### Guards -/

theorem map_bind_except {ε α β γ : Type} (x : Except ε α) (f : α → Except ε β) (g : β → γ) :
    (x >>= f).map g = x >>= fun a => (f a).map g := by
  cases x <;> rfl

theorem bind_map_except {ε α β γ : Type} (x : Except ε α) (g : α → β) (f : β → Except ε γ) :
    x.map g >>= f = x >>= fun a => f (g a) := by
  cases x <;> rfl

theorem orFail_map {α β : Type} (x : Option α) (g : α → β) (e : ProofError) :
    orFail (x.map g) e = (orFail x e).map g := by
  cases x <;> rfl

/-- The goals that a closure is about. -/
theorem Session.eq_openGoalsBelow_of_closureAt {s : Session} {a b ancestor : NodeId}
    {σ : Substitution} {goals : List NodeId} (h : s.closureAt a b σ = .ok (ancestor, goals)) :
    goals = s.tableau.openGoalsBelow ancestor := by
  simp only [closureAt, bind_eq_ok, orFail_eq_ok, require_eq_ok, mapError_eq_ok, pure, Except.pure,
    Except.ok.injEq, exists_const, Prod.mk.injEq] at h
  obtain ⟨_, -, _, -, -, _, -, _, -, -, rfl, rfl⟩ := h
  rfl

namespace ArenaSession

/-- Whether a session on a store holds what a session on a tree holds. -/
structure Stores (S : ArenaSession) (s : Session) : Prop where
  holds : S.arena.Holds s.tableau
  names_eq : S.names = s.names
  wellFormed : s.tableau.WellFormed

/-- Whether two operations give the same result, and sessions that hold the same. -/
def Agree {α : Type} (x : Except ProofError α × ArenaSession) (y : Except ProofError α × Session) :
    Prop :=
  x.1 = y.1 ∧ x.2.Stores y.2

theorem Agree.map {α β : Type} {x : Except ProofError α × ArenaSession}
    {y : Except ProofError α × Session} (h : Agree x y) (f : α → β) :
    Agree (x.map (·.map f) id) (y.map (·.map f) id) :=
  ⟨congrArg (Except.map f) h.1, h.2⟩

namespace Stores

variable {S : ArenaSession} {s : Session}

/-! ### Nodes -/

theorem slot_eq (h : S.Stores s) (id : NodeId) : S.arena.slot id = (s.node id).map Slot.ofNode := by
  rw [Arena.slot, h.holds.slot?_eq, orFail_map, Session.node]

theorem formulaNode_eq (h : S.Stores s) (id : NodeId) :
    S.formulaNode id = (s.entryFor id).map Entry.id := by
  rw [formulaNode, h.slot_eq, h.holds.nearestFormula?_eq h.wellFormed, orFail_map, bind_map_except,
    Session.entryFor, map_bind_except]

/-- The slot of the entry that a node stands for. -/
theorem exists_slot_of_entryFor (h : S.Stores s) {id : NodeId} {e : Entry}
    (he : s.entryFor id = .ok e) :
    ∃ slot, S.arena.slot e.id = .ok slot ∧ slot.sign = e.signed.sign ∧
      slot.formula = some e.signed.formula := by
  obtain ⟨above, hspot⟩ := Session.exists_mem_spots_of_entryFor he
  obtain ⟨slot, hslot, hsign, hformula, -⟩ :=
    h.holds.slot?_of_entry h.wellFormed.numbered.nodup hspot
  exact ⟨slot, by rw [Arena.slot, hslot, orFail], hsign, hformula⟩

theorem signedFormula_eq (h : S.Stores s) (id : NodeId) :
    S.signedFormula id = (s.entryFor id).map Entry.signed := by
  rw [signedFormula, h.formulaNode_eq, bind_map_except]
  cases he : s.entryFor id with
  | error e => rfl
  | ok e =>
    obtain ⟨slot, hslot, hsign, hformula⟩ := h.exists_slot_of_entryFor he
    simp only [bind, Except.bind, hslot, hformula, hsign]
    rfl

theorem applicableRules_eq (h : S.Stores s) (id : NodeId) :
    S.applicableRules id = s.applicableRules id := by
  rw [applicableRules, h.signedFormula_eq, bind_map_except, Session.applicableRules]
  exact bind_congr fun e => by rw [Rule.filter_applies]

/-- The formula is proved on the store just if it is proved on the tree. -/
theorem isProved_eq (h : S.Stores s) : S.isProved = s.isProved := by
  rw [isProved, Arena.isClosed, h.holds.openGoals_eq h.wellFormed]
  rfl

/-! ### Rule application -/

theorem sourceFormula_eq (h : S.Stores s) (rule : Rule) (goal source : NodeId) :
    S.sourceFormula rule goal source = (s.sourceEntry rule goal source).map Entry.signed := by
  simp only [sourceFormula, Session.sourceEntry, h.slot_eq, bind_map_except, map_bind_except,
    h.holds.isAncestor_eq h.wellFormed, h.holds.isExpandedOn_eq h.wellFormed, Rule.applies_iff]
  refine bind_congr fun n => bind_congr fun _ => bind_congr fun _ => bind_congr fun m => ?_
  rw [show (Slot.ofNode m).formula = m.asEntry.map (·.signed.formula) from rfl,
    show (Slot.ofNode m).sign = (m.asEntry.map (·.signed.sign)).getD .denied from rfl]
  cases m.asEntry <;> rfl

theorem applyRule (h : S.Stores s) (rule : Rule) (goal source : NodeId) :
    Agree (S.applyRule rule goal source) (s.applyRule rule goal source) := by
  rw [ArenaSession.applyRule, h.sourceFormula_eq, Session.applyRule]
  cases hsource : s.sourceEntry rule goal source with
  | error e => exact ⟨rfl, h⟩
  | ok e =>
    obtain ⟨above, hgoal, -⟩ :=
      Session.exists_above_of_sourceEntry h.wellFormed.numbered.nodup hsource
    simp only [Except.map, Rule.yield_eq, h.holds.freeVars_eq h.wellFormed, h.names_eq]
    rcases rule.expand e.signed (s.tableau.freeVars goal) s.names with ⟨e' | expansion, names⟩
    · exact ⟨rfl, h.holds, rfl, h.wellFormed⟩
    · obtain ⟨arena, hexpand, hholds⟩ :=
        h.holds.expand h.wellFormed hgoal ⟨rule, source⟩ expansion
      simp only [Prod.map, id, hexpand]
      exact ⟨rfl, hholds, rfl, h.wellFormed.expand (Tableau.mem_goals_of_mem_spots hgoal)⟩

theorem applyRuleNearest (h : S.Stores s) (rule : Rule) (goal : NodeId) :
    Agree (S.applyRuleNearest rule goal) (s.applyRuleNearest rule goal) := by
  rw [ArenaSession.applyRuleNearest, h.formulaNode_eq, Session.applyRuleNearest]
  cases s.entryFor goal with
  | error e => exact ⟨rfl, h⟩
  | ok e => exact h.applyRule rule goal e.id

/-! ### Closure -/

theorem closureAt_eq (h : S.Stores s) (a b : NodeId) (σ : Substitution) :
    S.closureAt a b σ = s.closureAt a b σ := by
  simp only [closureAt, Session.closureAt, h.formulaNode_eq, bind_map_except]
  cases hleft : s.entryFor a with
  | error e => rfl
  | ok left =>
    cases hright : s.entryFor b with
    | error e => rfl
    | ok right =>
      obtain ⟨leftSlot, hleftSlot, hleftSign, hleftFormula⟩ := h.exists_slot_of_entryFor hleft
      obtain ⟨rightSlot, hrightSlot, hrightSign, hrightFormula⟩ := h.exists_slot_of_entryFor hright
      simp only [bind, Except.bind, hleftSlot, hleftSign, hleftFormula, hrightSlot, hrightSign,
        hrightFormula, h.holds.commonAncestor?_eq h.wellFormed,
        h.holds.openGoalsBelow_eq h.wellFormed]
      rfl

theorem closeWith (h : S.Stores s) (a b : NodeId) (σ : Substitution) :
    Agree (S.closeWith a b σ) (s.closeWith a b σ) := by
  rw [ArenaSession.closeWith, h.closureAt_eq, Session.closeWith]
  cases hclosure : s.closureAt a b σ with
  | error e => exact ⟨rfl, h⟩
  | ok result =>
    obtain ⟨ancestor, goals⟩ := result
    obtain rfl := Session.eq_openGoalsBelow_of_closureAt hclosure
    refine ⟨rfl, ?_, ?_, h.wellFormed.closeBelow⟩
    · exact h.holds.closeGoals h.wellFormed ancestor σ
    · exact congrArg (·.reserve σ.imageSymbols) h.names_eq

theorem close (h : S.Stores s) (a b : NodeId) (text : String) :
    Agree (S.close a b text) (s.close a b text) := by
  have hσ : S.closingSubstitution a b text = s.closingSubstitution a b text := by
    simp only [closingSubstitution, Session.closingSubstitution, h.slot_eq, bind_map_except,
      h.holds.freeVars_eq h.wellFormed]
  rw [ArenaSession.close, hσ, Session.close]
  cases s.closingSubstitution a b text with
  | error e => exact ⟨rfl, h⟩
  | ok σ => exact h.closeWith a b σ

/-- A request gets the same reply, and leads to the same session again. -/
theorem perform (h : S.Stores s) (r : Request) : Agree (S.perform r) (s.perform r) := by
  cases r with
  | applyRule rule goal source => exact (h.applyRule rule goal source).map Reply.newGoals
  | applyRuleNearest rule goal => exact (h.applyRuleNearest rule goal).map Reply.newGoals
  | close a b text => exact (h.close a b text).map Reply.closure
  | closeWith a b σ => exact (h.closeWith a b σ).map Reply.closure

theorem after (h : S.Stores s) (rs : List Request) : (S.after rs).Stores (s.after rs) := by
  induction rs generalizing S s with
  | nil => exact h
  | cons r rs ih => exact ih (h.perform r).2

end Stores

theorem stores_ofFormula (φ : Term) : (ofFormula φ).Stores (.ofFormula φ) :=
  ⟨.start _, rfl, .start _⟩

/-- After every run, a session on a store holds what the session on a tree holds. -/
theorem stores_after (φ : Term) (rs : List Request) :
    ((ofFormula φ).after rs).Stores ((Session.ofFormula φ).after rs) :=
  (stores_ofFormula φ).after rs

end ArenaSession

end SignedTableaux
