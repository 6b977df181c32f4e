import SignedTableaux.Proofs.Session.Names
import SignedTableaux.Proofs.Session.Representation
import SignedTableaux.Proofs.Tableau.Persistence

/-!
# History is never rewritten

In the course of a run a session only grows. Entries and closed goals stay as they are, open goals
keep their places, names in use stay in use, and in a proved session nothing happens any more: every
request needs an open goal.

## Main definitions

* `Session.KeepsHistory` — what a later session has kept of an earlier one

## Main results

* `Session.Growth.extends_session`, `Session.Closing.extends_session`, `Session.extends_after` —
  tableaux are extended, by one step and by a whole run
* `Session.refused_of_isProved` — a proved session refuses every request
* `Session.keepsHistory_after` — what a run keeps of its earlier part
-/

namespace SignedTableaux.Session

variable {s s' : Session} {φ : Term}

/-! ### Tableaux -/

theorem Growth.extends_session (g : Growth s) (h : s.tableau.WellFormed) :
    s.tableau.Extends g.session.tableau :=
  h.extends_expand g.goal_mem ⟨g.parts.rule, g.source.id⟩ g.expansion

theorem Closing.extends_session (c : Closing s) (h : s.tableau.WellFormed) :
    s.tableau.Extends c.session.tableau :=
  h.extends_closeBelow c.ancestor c.σ

/-- The later tableaux of a run extend the earlier ones. -/
theorem extends_after (φ : Term) {pre rs : List Request} (hpre : pre <+: rs) :
    ((ofFormula φ).after pre).tableau.Extends ((ofFormula φ).after rs).tableau := by
  refine (after_mono (P := fun s => s.tableau.WellFormed ∧
    ((ofFormula φ).after pre).tableau.Extends s.tableau) ?grown ?closed hpre
    ⟨wellFormed_after φ pre, .refl _⟩).2
  case grown =>
    rintro s g - ⟨hformed, hextends⟩
    exact ⟨hformed.expand g.mem_goals, hextends.trans (g.extends_session hformed)⟩
  case closed =>
    rintro s c - ⟨hformed, hextends⟩
    exact ⟨hformed.closeBelow, hextends.trans (c.extends_session hformed)⟩

/-! ### Names -/

/-- The number of names that were issued does not go down. -/
theorem issued_le_after (φ : Term) {pre rs : List Request} (hpre : pre <+: rs) :
    ((ofFormula φ).after pre).names.issued ≤ ((ofFormula φ).after rs).names.issued := by
  refine after_mono (P := fun s => ((ofFormula φ).after pre).names.issued ≤ s.names.issued)
    (fun g _ h => ?_) (fun c _ h => h) hpre (Nat.le_refl _)
  change _ ≤ g.names.issued
  rw [g.draws_spec.issued_eq]
  exact Nat.le_add_right_of_le h

/-! ### Proved sessions -/

/-- A proved session has no open goal, and every request that is accepted needs one. -/
theorem refused_of_isProved (hnodup : s.tableau.ids.Nodup) (hproved : s.isProved) (r : Request) :
    ∃ e, s.perform r = (.error e, s) := by
  have hnone : ∀ p ∈ s.tableau.spots, p.content ≠ .goal none := by
    intro p hp hopen
    have hmem : p.id ∈ s.tableau.openGoals :=
      (Tableau.mem_openGoals_iff []).mpr ⟨p, hp, hopen, rfl⟩
    rw [List.isEmpty_iff.mp hproved] at hmem
    exact List.not_mem_nil hmem
  rcases perform_effect hnodup r with ⟨e, h⟩ | ⟨g, -, -⟩ | ⟨c, -, -⟩
  · exact ⟨e, h⟩
  · exact absurd rfl (hnone _ g.goal_mem)
  · obtain ⟨g, hg⟩ := List.exists_mem_of_ne_nil _ c.openGoals_ne
    obtain ⟨p, hp, hopen, -⟩ := Tableau.exists_spot_of_mem_openGoalsBelow hg
    exact absurd hopen (hnone p hp)

theorem after_append (s : Session) (rs rs' : List Request) :
    s.after (rs ++ rs') = (s.after rs).after rs' :=
  List.foldl_append

/-- A run of refused requests leads nowhere. -/
theorem after_eq_self (h : ∀ r, ∃ e, s.perform r = (.error e, s)) (rs : List Request) :
    s.after rs = s := by
  induction rs with
  | nil => rfl
  | cons r rs ih =>
    obtain ⟨e, he⟩ := h r
    rw [← List.singleton_append, after_append]
    change ((s.perform r).2).after rs = s
    rw [he, ih]

/-! ### History -/

/-- What a later session `s'` has kept of a session `s`: all but its open goals, and these at their
places. -/
structure KeepsHistory (s s' : Session) : Prop where
  size_le : s.tableau.size ≤ s'.tableau.size
  /-- An entry has its formula, its sign, its origin and the variable it introduces for ever. -/
  entry : ∀ id n e, s.tableau.node? id = some n → n.asEntry = some e →
    ∃ m, s'.tableau.node? id = some m ∧ m.asEntry = some e ∧ m.parent = n.parent ∧
      m.position = n.position ∧ s'.tableau.ancestors id = s.tableau.ancestors id
  /-- A goal may become an entry, at its place. -/
  goal : ∀ id n, s.tableau.node? id = some n → n.isGoal →
    ∃ m, s'.tableau.node? id = some m ∧ m.parent = n.parent ∧ m.position = n.position ∧
      s'.tableau.ancestors id = s.tableau.ancestors id
  /-- A closed goal stays a goal without children, closed by the same substitution. -/
  closed : ∀ id n, s.tableau.node? id = some n → n.isClosed →
    n.isGoal ∧ n.children = [] ∧ s'.tableau.node? id = some n
  taken : ∀ x ∈ s.names.taken, x ∈ s'.names.taken
  issued_le : s.names.issued ≤ s'.names.issued

/-- What a run keeps of its earlier part. If the formula is proved already, the rest of the run is
refused and leaves the session as it is. -/
theorem keepsHistory_after (φ : Term) (pre rs : List Request) :
    ((ofFormula φ).after pre).KeepsHistory ((ofFormula φ).after (pre ++ rs)) ∧
      (((ofFormula φ).after pre).isProved →
        (ofFormula φ).after (pre ++ rs) = (ofFormula φ).after pre ∧
          ∀ r, ∃ e, ((ofFormula φ).after pre).perform r = (.error e, (ofFormula φ).after pre)) := by
  have hpre : pre <+: pre ++ rs := List.prefix_append pre rs
  have hextends := extends_after φ hpre
  refine ⟨⟨hextends.size_le, fun id n e hn he => ?entry, fun id n hn _ => ?goal,
    fun id n hn hclosed => ?closed, fun x hx => mem_taken_after hpre hx, issued_le_after φ hpre⟩,
    fun hproved => ?proved⟩
  case entry =>
    obtain ⟨m, hm, hbecomes, hancestors⟩ := hextends.kept id n hn
    exact ⟨m, hm, hbecomes.asEntry_eq he, hbecomes.parent_eq, hbecomes.position_eq,
      hancestors⟩
  case goal =>
    obtain ⟨m, hm, hbecomes, hancestors⟩ := hextends.kept id n hn
    exact ⟨m, hm, hbecomes.parent_eq, hbecomes.position_eq, hancestors⟩
  case closed =>
    obtain ⟨m, hm, hbecomes, -⟩ := hextends.kept id n hn
    obtain ⟨hgoal, hchildren, rfl⟩ := Tableau.eq_of_isClosed (Tableau.mem_nodes_of_node? hn).1
      (Tableau.mem_nodes_of_node? hm).1 hbecomes hclosed
    exact ⟨hgoal, hchildren, hm⟩
  case proved =>
    have hrefused := refused_of_isProved (wellNumbered_after φ pre).nodup hproved
    rw [after_append]
    exact ⟨after_eq_self hrefused rs, hrefused⟩

/-- The formula `P -> P & P`. -/
def twiceImplied : Term :=
  .binary .implies (.pred "P" []) (.binary .and (.pred "P" []) (.pred "P" []))

/-- The conclusion is taken apart on two branches, which are closed together. -/
def twiceImpliedRun : List Request :=
  [.applyRule .alpha 1 0, .applyRule .beta 3 2, .close 3 1 ""]

/-- The goal of the first tableau becomes an entry that has got a sibling. Once both branches are
closed, rules are refused. -/
theorem keepsHistory_twiceImplied :
    ((ofFormula twiceImplied).after [.applyRule .alpha 1 0]).KeepsHistory
        ((ofFormula twiceImplied).after twiceImpliedRun) ∧
      (((ofFormula twiceImplied).after [.applyRule .alpha 1 0]).tableau.node? 3).map
        (fun n => (n.isGoal, n.parent, n.position)) = some (true, some 2, 0) ∧
      (((ofFormula twiceImplied).after twiceImpliedRun).tableau.node? 3).map
        (fun n => (n.isGoal, n.parent, n.position)) = some (false, some 2, 0) ∧
      ((ofFormula twiceImplied).after twiceImpliedRun).isProved ∧
      (ofFormula twiceImplied).after (twiceImpliedRun ++ [.applyRule .alpha 5 0]) =
        (ofFormula twiceImplied).after twiceImpliedRun := by
  have hproved : ((ofFormula twiceImplied).after twiceImpliedRun).isProved := by decide +kernel
  refine ⟨?_, by decide +kernel, by decide +kernel, hproved,
    ((keepsHistory_after twiceImplied twiceImpliedRun _).2 hproved).1⟩
  exact (keepsHistory_after twiceImplied [.applyRule .alpha 1 0] twiceImpliedRun.tail).1

end SignedTableaux.Session
