import SignedTableaux.Proofs.Formula.Instances
import SignedTableaux.Proofs.Session.Refusals
import SignedTableaux.Proofs.Term.Disagreement

/-!
# The order of two nodes does not matter

A closure is asked for with two nodes. Three steps of it treat them unequally: the variables of the
substitution text are collected from one node and then from the other, the common ancestor is
searched for from one node, and terms are compared from left to right. None of this can be told from
the outcome. With the nodes in the other order the same goals are closed by the same substitution,
or the closure is refused for the same cause, told the other way round.

## Main definitions

* `ProofError.mirror` — a cause with its two sides exchanged

## Main results

* `Substitution.parse_congr` — only the set of variables matters to the reading of a substitution
* `Session.closureAt_swap` — what is closed, or why not, with the nodes in the other order
* `Session.close_swap` — closures by a text, after every run
-/

namespace SignedTableaux

/-! ### Substitution texts -/

section Reading

variable {vars vars' : List String} (h : ∀ x, x ∈ vars ↔ x ∈ vars')

include h

theorem Term.parse_congr (text : String) : Term.parse text vars = Term.parse text vars' := by
  have hbind : bindNames vars = bindNames vars' := funext fun t => bindNames_congr h
  rw [Term.parse, Term.parse, hbind]

namespace Substitution

theorem Entry.parse_congr (entry : Entry) : entry.parse vars = entry.parse vars' := by
  unfold Entry.parse
  simp only [Term.parse_congr h]

theorem addEntries_congr (σ : Substitution) (entries : List Entry) :
    addEntries vars σ entries = addEntries vars' σ entries := by
  induction entries generalizing σ with
  | nil => rfl
  | cons entry rest ih =>
    rw [addEntries, addEntries, entry.parse_congr h]
    simp only [ih]

/-- Which names are variables matters to the reading of a substitution, and not how they are
listed. -/
theorem parse_congr (text : String) : parse text vars = parse text vars' := by
  rw [parse, parse, addEntries_congr h]

end Substitution

end Reading

/-! ### Causes -/

/-- A cause with its two sides exchanged. -/
def ProofError.mirror : ProofError → ProofError
  | .sameSign l r sign => .sameSign r l sign
  | .noCommonAncestor a b => .noCommonAncestor b a
  | .notUnifiable m => .notUnifiable m.swap
  | e => e

namespace Session

variable {s : Session} {a b : NodeId}

/-! ### Closures -/

theorem exists_entryFor (hformed : s.tableau.WellFormed) (ha : a ∈ s.tableau.ids) :
    ∃ e, s.entryFor a = .ok e := by
  obtain ⟨n, hn, rfl⟩ := Tableau.exists_node ha
  obtain ⟨p, hp, hid, -⟩ := Tableau.exists_spot_of_mem_nodes hn
  obtain ⟨e, he⟩ := hformed.exists_nearest hp
  exact ⟨e, (entryFor_eq_ok_iff hformed.numbered.nodup).mpr (hid ▸ he)⟩

/-- A closure with two nodes that stand for entries with a common ancestor. -/
theorem closureAt_eq {l r : Entry} {k : NodeId} (hl : s.entryFor a = .ok l)
    (hr : s.entryFor b = .ok r)
    (hk : s.tableau.commonAncestor? l.id r.id = some k) (σ : Substitution) :
    s.closureAt a b σ =
      if l.signed.sign = r.signed.sign then .error (.sameSign l.id r.id l.signed.sign)
      else match σ.unify l.signed.formula r.signed.formula with
        | .error m => .error (.notUnifiable m)
        | .ok _ =>
          if s.tableau.openGoalsBelow k = [] then .error (.noOpenGoals k)
          else .ok (k, s.tableau.openGoalsBelow k) := by
  rw [closureAt, hl, hr]
  by_cases hsign : l.signed.sign = r.signed.sign
  · simp [require, hsign, bind, Except.bind]
  · cases hunify : σ.unify l.signed.formula r.signed.formula with
    | error m => simp [require, orFail, hsign, hk, hunify, bind, Except.bind, Except.mapError]
    | ok t =>
      by_cases hgoals : s.tableau.openGoalsBelow k = [] <;>
        simp [require, orFail, hsign, hk, hunify, hgoals, bind, Except.bind, Except.mapError, pure,
          Except.pure]

/-- With the nodes in the other order, the same goals are to be closed, or the cause is mirrored. -/
theorem closureAt_swap (hformed : s.tableau.WellFormed) (ha : a ∈ s.tableau.ids)
    (hb : b ∈ s.tableau.ids) (σ : Substitution) :
    s.closureAt b a σ = (s.closureAt a b σ).mapError ProofError.mirror := by
  obtain ⟨l, hl⟩ := exists_entryFor hformed ha
  obtain ⟨r, hr⟩ := exists_entryFor hformed hb
  obtain ⟨above, hp⟩ := exists_mem_spots_of_entryFor hl
  obtain ⟨above', hq⟩ := exists_mem_spots_of_entryFor hr
  obtain ⟨k, hk⟩ := hformed.exists_commonAncestor hp hq
  have hk' := (hformed.numbered.commonAncestor?_comm r.id l.id).trans hk
  rw [closureAt_eq hl hr hk, closureAt_eq hr hl hk', σ.unify_swap l.signed.formula]
  by_cases hsign : l.signed.sign = r.signed.sign
  · rw [if_pos hsign, if_pos hsign.symm, hsign]
    rfl
  · rw [if_neg hsign, if_neg (Ne.symm hsign)]
    cases σ.unify l.signed.formula r.signed.formula with
    | error m => rfl
    | ok t =>
      change ite _ _ _ = Except.mapError _ (ite _ _ _)
      split <;> rfl

theorem closeWith_swap (hformed : s.tableau.WellFormed) (ha : a ∈ s.tableau.ids)
    (hb : b ∈ s.tableau.ids) (σ : Substitution) :
    s.closeWith b a σ =
      ((s.closeWith a b σ).1.mapError ProofError.mirror, (s.closeWith a b σ).2) := by
  rw [closeWith, closeWith, closureAt_swap hformed ha hb]
  cases s.closureAt a b σ <;> rfl

/-- Two nodes of the tableau say which names of a substitution text are variables. -/
theorem closingSubstitution_eq (hnodup : s.tableau.ids.Nodup) (ha : a ∈ s.tableau.ids)
    (hb : b ∈ s.tableau.ids) (text : String) :
    s.closingSubstitution a b text =
      (Substitution.parse text (s.tableau.freeVars a ++ s.tableau.freeVars b)).mapError
        .language := by
  obtain ⟨n, hn, rfl⟩ := Tableau.exists_node ha
  obtain ⟨m, hm, rfl⟩ := Tableau.exists_node hb
  rw [closingSubstitution, node, node, Tableau.node?_eq_some hnodup hn,
    Tableau.node?_eq_some hnodup hm]
  rfl

/-- After every run, a closure with two nodes of the tableau is accepted just if it is with the
nodes in the other order. It closes the same goals below the same node by the same substitution, and
leaves the same session. If it is refused, it is for the same cause with its two sides exchanged. -/
theorem close_swap (φ : Term) (rs : List Request)
    (ha : a ∈ ((ofFormula φ).after rs).tableau.ids) (hb : b ∈ ((ofFormula φ).after rs).tableau.ids)
    (text : String) :
    ((ofFormula φ).after rs).close b a text =
      ((((ofFormula φ).after rs).close a b text).1.mapError ProofError.mirror,
        (((ofFormula φ).after rs).close a b text).2) := by
  have hformed := wellFormed_after φ rs
  have hnodup := hformed.numbered.nodup
  set s := (ofFormula φ).after rs
  have hvars : ∀ x, x ∈ s.tableau.freeVars b ++ s.tableau.freeVars a ↔
      x ∈ s.tableau.freeVars a ++ s.tableau.freeVars b := by
    intro x
    rw [List.mem_append, List.mem_append, or_comm]
  rw [close, close, closingSubstitution_eq hnodup hb ha, closingSubstitution_eq hnodup ha hb,
    Substitution.parse_congr hvars]
  cases Substitution.parse text (s.tableau.freeVars a ++ s.tableau.freeVars b) with
  | ok σ => exact closeWith_swap hformed ha hb σ
  | error e => rfl

/-- The one instance of `(forall x. P(x)) -> P(a)` and the conclusion close the goal in either
order, if the new variable is `a`. If it is `b`, the two orders tell the two sides of the mismatch
in turn. -/
theorem close_swap_oneInstance :
    let s := (ofFormula oneInstance).after [.applyRule .alpha 1 0, .applyRule .gamma 3 1]
    let a := Term.fn "a" []
    let b := Term.fn "b" []
    (s.close 2 4 "X_1/a").1 = .ok ⟨2, [4], .single "X_1" a⟩ ∧
      (s.close 4 2 "X_1/a").1 = .ok ⟨2, [4], .single "X_1" a⟩ ∧
      (s.close 2 4 "X_1/b").1 = .error (.notUnifiable ⟨.pred "P" [a], .pred "P" [b], (a, b)⟩) ∧
      (s.close 4 2 "X_1/b").1 = .error (.notUnifiable ⟨.pred "P" [b], .pred "P" [a], (b, a)⟩) := by
  intro s a b
  have hnodes : 2 ∈ s.tableau.ids ∧ 4 ∈ s.tableau.ids := by decide +kernel
  have hclosed : (s.close 2 4 "X_1/a").1 = .ok ⟨2, [4], .single "X_1" a⟩ := by decide +kernel
  have hrefused : (s.close 2 4 "X_1/b").1 =
      .error (.notUnifiable ⟨.pred "P" [a], .pred "P" [b], (a, b)⟩) := by
    decide +kernel
  have hswap := close_swap oneInstance _ hnodes.1 hnodes.2
  refine ⟨hclosed, ?_, hrefused, ?_⟩
  · rw [congrArg Prod.fst (hswap "X_1/a"), hclosed]
    rfl
  · rw [congrArg Prod.fst (hswap "X_1/b"), hrefused]
    rfl

end Session

end SignedTableaux
