import Mathlib.Algebra.Order.BigOperators.Group.List
import Mathlib.Algebra.Order.Group.Nat
import SignedTableaux.Proofs.Session.Termination

/-!
# Open branches give counterexamples

A branch on which every entry is expanded has, for each entry that falls into parts, all of the
parts or one of two alternatives, as its rule asks for. If in addition no leaf is both affirmed and
denied there, then the leaves that are affirmed make every entry of the branch hold, and the formula
to be proved false. This is about formulas without quantifiers; their leaves are arbitrary terms.

## Main definitions

* `Term.IsPropositional`, `Term.evaluate` — formulas without quantifiers, and their truth values
* `Tableau.Saturated` — a goal whose branch is expanded and has no complementary leaves
* `affirmedLeaves` — the valuation that makes the leaves affirmed on a branch true

## Main results

* `Session.exists_use_of_expanded` — what an expanded entry leads to is on the branch
* `Session.parts_of_alpha`, `Session.part_of_beta` — so all parts are, or one of two
* `Session.evaluate_of_mem_above` — every entry of a saturated branch holds
* `Session.evaluate_of_saturated` — and the formula to be proved is false
-/

namespace SignedTableaux

/-! ### Formulas without quantifiers -/

namespace Term

/-- Whether a term has neither a connective nor a quantifier at its head. -/
def isLeaf : Term → Bool
  | .app .. | .var _ => true
  | .not _ | .binary .. | .quantified .. => false

/-- Whether a term is built from leaves by negation and binary connectives. -/
inductive IsPropositional : Term → Prop
  | leaf {t : Term} (h : t.isLeaf = true) : IsPropositional t
  | not {t : Term} (h : IsPropositional t) : IsPropositional (.not t)
  | binary (op : Connective) {l r : Term} (hl : IsPropositional l) (hr : IsPropositional r) :
      IsPropositional (.binary op l r)

/-- The truth value of a formula without quantifiers, given those of its leaves. -/
def evaluate (v : Term → Bool) : Term → Bool
  | .not t => !t.evaluate v
  | .binary .and l r => l.evaluate v && r.evaluate v
  | .binary .or l r => l.evaluate v || r.evaluate v
  | .binary .implies l r => !l.evaluate v || r.evaluate v
  | t => v t

theorem evaluate_of_isLeaf {t : Term} (v : Term → Bool) (h : t.isLeaf = true) :
    t.evaluate v = v t := by
  cases t with
  | app k f args => rfl
  | var x => rfl
  | not _ | binary _ _ _ | quantified _ _ _ => cases h

end Term

namespace Signed

variable {v : Term → Bool}

/-- Whether a formula is true, if it is affirmed, or false, if it is denied. -/
def evaluate (v : Term → Bool) : Signed → Bool
  | ⟨.affirmed, t⟩ => t.evaluate v
  | ⟨.denied, t⟩ => !t.evaluate v

/-- A formula of the alpha kind says that all its parts hold. -/
theorem evaluate_of_alpha {s first : Signed} {others : List Signed}
    (h : s.decomposition? = some (.alpha first others)) :
    s.evaluate v = (first :: others).all (·.evaluate v) := by
  obtain ⟨sign, t⟩ := s
  cases t with
  | app k f args => simp [decomposition?] at h
  | var x => simp [decomposition?] at h
  | not t =>
    obtain ⟨rfl, rfl⟩ := Decomposition.alpha.inj (Option.some.inj h)
    cases sign <;> simp [evaluate, Term.evaluate, Sign.flip]
  | binary c l r =>
    cases sign <;> cases c <;>
      simp only [decomposition?, Option.some.injEq, Decomposition.alpha.injEq,
        reduceCtorEq] at h <;>
      obtain ⟨rfl, rfl⟩ := h <;> simp [evaluate, Term.evaluate]
  | quantified q x body => cases sign <;> cases q <;> simp [decomposition?] at h

/-- A formula of the beta kind says that one of its two parts holds. -/
theorem evaluate_of_beta {s left right : Signed} (h : s.decomposition? = some (.beta left right)) :
    s.evaluate v = (left.evaluate v || right.evaluate v) := by
  obtain ⟨sign, t⟩ := s
  cases t with
  | app k f args => simp [decomposition?] at h
  | var x => simp [decomposition?] at h
  | not t => simp [decomposition?] at h
  | binary c l r =>
    cases sign <;> cases c <;>
      simp only [decomposition?, Option.some.injEq, Decomposition.beta.injEq, reduceCtorEq] at h <;>
      obtain ⟨rfl, rfl⟩ := h <;> simp [evaluate, Term.evaluate]
  | quantified q x body => cases sign <;> cases q <;> simp [decomposition?] at h

theorem isLeaf_of_decomposition?_eq_none {s : Signed} (h : s.decomposition? = none) :
    s.formula.isLeaf = true := by
  obtain ⟨sign, t⟩ := s
  cases t with
  | app k f args => rfl
  | var x => rfl
  | not t => simp [decomposition?] at h
  | binary c l r => cases sign <;> cases c <;> simp [decomposition?] at h
  | quantified q x body => cases sign <;> cases q <;> simp [decomposition?] at h

/-- The parts of a formula without quantifiers have none either. -/
theorem isPropositional_parts {s : Signed} {d : Decomposition} (h : s.decomposition? = some d)
    (hs : s.formula.IsPropositional) : ∀ p ∈ d.parts, p.formula.IsPropositional := by
  obtain ⟨sign, t⟩ := s
  cases isOf_of_decomposition? h with
  | not hparts =>
    cases hs with
    | leaf hleaf => cases hleaf
    | not ht => simpa [hparts] using ht
  | binary hparts =>
    cases hs with
    | leaf hleaf => cases hleaf
    | binary op hl hr => simpa [hparts] using ⟨hl, hr⟩
  | quantified hparts => simp [hparts]

/-- A formula without quantifiers is taken apart without new names. -/
theorem drawsName_eq_false_of_isPropositional {s : Signed} {d : Decomposition}
    (h : s.decomposition? = some d) (hs : s.formula.IsPropositional) :
    d.rule.drawsName = false := by
  obtain ⟨sign, t⟩ := s
  cases isOf_of_decomposition? h with
  | not _ hrule | binary _ hrule => exact hrule
  | quantified =>
    cases hs with
    | leaf hleaf => cases hleaf

end Signed

/-! ### Saturated branches -/

/-- The valuation that makes just the leaves true that are affirmed on a branch. -/
def affirmedLeaves (above : List Entry) (t : Term) : Bool :=
  t.isLeaf && above.any (·.signed = ⟨.affirmed, t⟩)

/-- Whether the branch of a goal, with the entries `above` it, is saturated: every entry that a rule
applies to is expanded on it, and no leaf is both affirmed and denied. -/
structure Tableau.Saturated (t : Tableau) (goal : NodeId) (above : List Entry) : Prop where
  lineage : t.lineage? goal = some above
  expanded : ∀ e ∈ above, e.signed.rule? ≠ none → t.isExpandedOn e.id goal = true
  consistent : ∀ e ∈ above, ∀ e' ∈ above, e.signed.formula.isLeaf = true →
    e.signed.formula = e'.signed.formula → e.signed.sign = e'.signed.sign

theorem Tableau.exists_derived_of_isExpandedOn {t : Tableau} {p : Spot} {source : NodeId}
    (hnodup : t.ids.Nodup) (hp : p ∈ t.spots) (h : t.isExpandedOn source p.id = true) :
    ∃ e ∈ p.above, e.comesFrom source = true := by
  rw [isExpandedOn_eq hnodup hp] at h
  obtain ⟨e, he, hcomes⟩ := List.any_eq_true.mp h
  exact ⟨e, (List.takeWhile_sublist _).subset he, hcomes⟩

namespace Session

variable {s : Session} {φ : Term} {rs : List Request}

/-- The new entries are the fragments. -/
theorem Growth.map_signed_entries (g : Growth s) :
    g.subtree.entries.map Entry.signed = g.expansion.fragments.map Fragment.signed := by
  rcases g.shape with ⟨fragment, hexpansion, hsubtree⟩ |
    ⟨first, second, -, hexpansion, -, hsubtree⟩ | ⟨left, right, -, hexpansion, hsubtree⟩ <;>
    rw [hexpansion, hsubtree] <;> rfl

/-- The source of a use stays an entry. -/
theorem Use.source_mem (u : Use φ rs) :
    u.growth.source ∈ ((ofFormula φ).after rs).tableau.entries := by
  obtain ⟨lower, upper, habove⟩ := List.append_of_mem u.growth.source_mem
  refine (Tableau.mem_entries_iff []).mpr ⟨upper, mem_spots_after ?_
    (Tableau.mem_spots_of_above u.growth.goal_mem habove)⟩
  exact (List.prefix_append _ _).trans u.mem_run

section Expanded

variable {p : Spot} {closing : Option Substitution} {e : Entry}

/-- Where an entry is expanded on a branch, its rule has been used, and the share that the use gives
to one branch is on this one. -/
theorem exists_use_of_expanded (hp : p ∈ ((ofFormula φ).after rs).tableau.spots)
    (hgoal : p.content = .goal closing) (he : e ∈ p.above)
    (hexpanded : ((ofFormula φ).after rs).tableau.isExpandedOn e.id p.id = true)
    {d : Decomposition} (hd : e.signed.decomposition? = some d) :
    ∃ u : Use φ rs, u.growth.parts = d ∧
      ∃ share ⊆ p.above, u.growth.expansion.Share u.results share := by
  have hnodup := (wellNumbered_after φ rs).nodup
  -- some entry above comes from `e`, so there was a use, and numbers are unique
  obtain ⟨e', he', hcomes⟩ := Tableau.exists_derived_of_isExpandedOn hnodup hp hexpanded
  rcases derivedOnce_after φ rs p hp closing hgoal e.id with hnone | ⟨u, hid, hshare⟩
  · exact absurd hcomes (List.filter_eq_nil_iff.mp hnone e' he')
  · have hmem : e ∈ ((ofFormula φ).after rs).tableau.entries :=
      Tableau.mem_entries_of_mem_branch hp (by rw [Spot.branch, hgoal]; exact he)
    have hsource := Tableau.entry_eq_of_id_eq hnodup u.source_mem hmem hid
    have hparts := u.growth.parts_eq
    rw [hsource, hd] at hparts
    exact ⟨u, (Option.some.inj hparts).symm, _, List.filter_sublist.subset, hshare⟩

/-- All parts of an expanded alpha formula are on the branch. -/
theorem parts_of_alpha (hp : p ∈ ((ofFormula φ).after rs).tableau.spots)
    (hgoal : p.content = .goal closing) (he : e ∈ p.above)
    (hexpanded : ((ofFormula φ).after rs).tableau.isExpandedOn e.id p.id = true)
    {first : Signed} {others : List Signed}
    (hd : e.signed.decomposition? = some (.alpha first others)) :
    ∀ part ∈ first :: others, ∃ e' ∈ p.above, e'.signed = part := by
  obtain ⟨u, hparts, share, hsub, hshare⟩ := exists_use_of_expanded hp hgoal he hexpanded hd
  have hexpansion := u.growth.expansion_of_alpha hparts
  intro part hpart
  have hmem : part ∈ u.results.map Entry.signed := by
    rw [Use.results, u.growth.map_signed_entries, hexpansion]
    simpa [Expansion.fragments] using hpart
  obtain ⟨e', he', rfl⟩ := List.mem_map.mp hmem
  rw [hexpansion] at hshare
  obtain rfl : share = u.results.reverse := hshare
  exact ⟨e', hsub (List.mem_reverse.mpr he'), rfl⟩

/-- One part of an expanded beta formula is on the branch. -/
theorem part_of_beta (hp : p ∈ ((ofFormula φ).after rs).tableau.spots)
    (hgoal : p.content = .goal closing) (he : e ∈ p.above)
    (hexpanded : ((ofFormula φ).after rs).tableau.isExpandedOn e.id p.id = true)
    {left right : Signed} (hd : e.signed.decomposition? = some (.beta left right)) :
    ∃ e' ∈ p.above, e'.signed ∈ [left, right] := by
  obtain ⟨u, hparts, share, hsub, hshare⟩ := exists_use_of_expanded hp hgoal he hexpanded hd
  have hexpansion := u.growth.expansion_of_beta hparts
  rw [hexpansion] at hshare
  obtain ⟨e', he', rfl⟩ := hshare
  have hmem : e'.signed ∈ u.results.map Entry.signed := List.mem_map_of_mem he'
  rw [Use.results, u.growth.map_signed_entries, hexpansion] at hmem
  exact ⟨e', hsub List.mem_cons_self, hmem⟩

end Expanded

/-- In a session for a formula without quantifiers no entry has any. -/
theorem isPropositional_after (hφ : φ.IsPropositional) (rs : List Request) :
    ∀ e ∈ ((ofFormula φ).after rs).tableau.entries, e.signed.formula.IsPropositional := by
  refine after_induction (P := fun s => ∀ e ∈ s.tableau.entries, e.signed.formula.IsPropositional)
    ?start ?grown ?closed rs
  case start =>
    intro e he
    obtain rfl := List.mem_singleton.mp he
    exact hφ
  case grown =>
    intro s g hnumbered h e he
    rcases (g.mem_entries_iff hnumbered.nodup).mp he with hold | hnew
    · exact h e hold
    · have hsource := h g.source (g.mem_entries_of_mem_above g.source_mem)
      have hrule := Signed.drawsName_eq_false_of_isPropositional g.parts_eq hsource
      obtain ⟨hfragments, -⟩ := Decomposition.of_expand_parts hrule g.expand_eq
      have hmem : e.signed ∈ g.subtree.entries.map Entry.signed := List.mem_map_of_mem hnew
      rw [g.map_signed_entries, hfragments, List.map_map] at hmem
      obtain ⟨part, hpart, hsigned⟩ := List.mem_map.mp hmem
      rw [← hsigned]
      exact Signed.isPropositional_parts g.parts_eq hsource part hpart
  case closed =>
    intro s c _ h e he
    rw [Closing.session, Tableau.entries_closeBelow] at he
    exact h e he

/-! ### Every entry of a saturated branch holds -/

theorem evaluate_of_isLeaf_of_consistent {above : List Entry} {e : Entry} (he : e ∈ above)
    (hleaf : e.signed.formula.isLeaf = true)
    (hconsistent : ∀ e' ∈ above, e'.signed.formula = e.signed.formula →
      e'.signed.sign = e.signed.sign) :
    e.signed.evaluate (affirmedLeaves above) = true := by
  obtain ⟨id, ⟨sign, t⟩, introduced, origin⟩ := e
  cases sign with
  | affirmed =>
    rw [Signed.evaluate, Term.evaluate_of_isLeaf _ hleaf, affirmedLeaves, Bool.and_eq_true]
    exact ⟨hleaf, List.any_eq_true.mpr ⟨_, he, decide_eq_true rfl⟩⟩
  | denied =>
    rw [Signed.evaluate, Term.evaluate_of_isLeaf _ hleaf, affirmedLeaves, Bool.not_eq_true',
      Bool.and_eq_false_iff]
    refine .inr (List.any_eq_false.mpr fun e' he' haffirmed => ?_)
    have hsigned : e'.signed = ⟨.affirmed, t⟩ := of_decide_eq_true haffirmed
    have hsign := hconsistent e' he' (by rw [hsigned])
    rw [hsigned] at hsign
    cases hsign

/-- Every entry of a saturated branch holds when just the leaves affirmed on it are true. -/
theorem evaluate_of_mem_above (hφ : φ.IsPropositional) {p : Spot} {closing : Option Substitution}
    (hp : p ∈ ((ofFormula φ).after rs).tableau.spots) (hgoal : p.content = .goal closing)
    (h : ((ofFormula φ).after rs).tableau.Saturated p.id p.above) {e : Entry} (he : e ∈ p.above) :
    e.signed.evaluate (affirmedLeaves p.above) = true := by
  -- The parts of an entry are on the branch too, and have fewer connectives.
  induction hn : e.signed.formula.connectives using Nat.strongRecOn generalizing e with
  | ind n ih =>
  have hpropositional : e.signed.formula.IsPropositional :=
    isPropositional_after hφ rs e
      (Tableau.mem_entries_of_mem_branch hp (by rw [Spot.branch, hgoal]; exact he))
  cases hd : e.signed.decomposition? with
  | none =>
    have hleaf := Signed.isLeaf_of_decomposition?_eq_none hd
    exact evaluate_of_isLeaf_of_consistent he hleaf fun e' he' hformula =>
      (h.consistent e he e' he' hleaf hformula.symm).symm
  | some d =>
    have hexpanded := h.expanded e he (by simp [Signed.rule?, hd])
    have hrule := Signed.drawsName_eq_false_of_isPropositional hd hpropositional
    have hparts : ∀ e' ∈ p.above, e'.signed ∈ d.parts →
        e'.signed.evaluate (affirmedLeaves p.above) = true := by
      intro e' he' hpart
      refine ih _ ?_ he' rfl
      have hle := List.le_sum_of_mem
        (List.mem_map_of_mem (f := fun s : Signed => s.formula.connectives) hpart)
      rw [← hn, Signed.connectives_eq_parts hd hrule]
      omega
    cases d with
    | alpha first others =>
      rw [Signed.evaluate_of_alpha hd, List.all_eq_true]
      intro part hpart
      obtain ⟨e', he', rfl⟩ := parts_of_alpha hp hgoal he hexpanded hd part hpart
      exact hparts e' he' hpart
    | beta left right =>
      obtain ⟨e', he', hpart⟩ := part_of_beta hp hgoal he hexpanded hd
      have htrue := hparts e' he' hpart
      rw [Signed.evaluate_of_beta hd, Bool.or_eq_true]
      rcases List.mem_pair.mp hpart with hleft | hright
      · exact .inl (hleft ▸ htrue)
      · exact .inr (hright ▸ htrue)
    | gamma sign x body => cases hrule
    | delta sign x body => cases hrule

theorem startEntry_mem_above {p : Spot} {closing : Option Substitution}
    (hp : p ∈ ((ofFormula φ).after rs).tableau.spots) (hgoal : p.content = .goal closing) :
    startEntry φ ∈ p.above := by
  obtain ⟨rest, htableau⟩ := exists_tableau_eq_step φ rs
  rw [htableau] at hp
  rcases List.mem_cons.mp hp with rfl | hbelow
  · cases hgoal
  · exact (Tableau.suffix_above hbelow).subset List.mem_cons_self

/-- A saturated branch gives a counterexample to a formula without quantifiers: when just the leaves
affirmed on it are true, all that stands on the branch holds and the formula is false. -/
theorem evaluate_of_saturated (hφ : φ.IsPropositional) (rs : List Request) {goal : NodeId}
    {above : List Entry} (hgoal : goal ∈ ((ofFormula φ).after rs).tableau.goals)
    (h : ((ofFormula φ).after rs).tableau.Saturated goal above) :
    (∀ e ∈ above, e.signed.evaluate (affirmedLeaves above) = true) ∧
      φ.evaluate (affirmedLeaves above) = false := by
  obtain ⟨p, hp, ⟨closing, hcontent⟩, rfl⟩ := (Tableau.mem_goals_iff []).mp hgoal
  have hlineage := h.lineage
  rw [Tableau.lineage?_eq, Tableau.spot?_eq_some (wellNumbered_after φ rs).nodup hp] at hlineage
  obtain rfl : p.above = above := Option.some.inj hlineage
  have hholds : ∀ e ∈ p.above, e.signed.evaluate (affirmedLeaves p.above) = true :=
    fun e he => evaluate_of_mem_above hφ hp hcontent h he
  have hstart := hholds _ (startEntry_mem_above hp hcontent)
  exact ⟨hholds, by simpa [startEntry, Signed.evaluate] using hstart⟩

/-- On the right branch for `P | x -> P` only `x` is affirmed, and there the formula is false. -/
theorem evaluate_right_branch_eq_false :
    let φ : Term := .binary .implies (.binary .or (.pred "P" []) (.var "x")) (.pred "P" [])
    let rs : List Request := [.applyRule .alpha 1 0, .applyRule .beta 3 1]
    let t := ((ofFormula φ).after rs).tableau
    ∃ above, 6 ∈ t.goals ∧ t.Saturated 6 above ∧ above.map Entry.id = [4, 2, 1, 0] ∧
      (∀ e ∈ above, e.signed.evaluate (affirmedLeaves above) = true) ∧
      φ.evaluate (affirmedLeaves above) = false := by
  intro φ rs t
  have hφ : φ.IsPropositional :=
    .binary _ (.binary _ (.leaf rfl) (.leaf rfl)) (.leaf rfl)
  have hgoal : 6 ∈ t.goals := by decide +kernel
  have h : t.Saturated 6 ((t.lineage? 6).getD []) :=
    ⟨by decide +kernel, by decide +kernel, by decide +kernel⟩
  exact ⟨_, hgoal, h, by decide +kernel, evaluate_of_saturated hφ rs hgoal h⟩

end Session

end SignedTableaux
