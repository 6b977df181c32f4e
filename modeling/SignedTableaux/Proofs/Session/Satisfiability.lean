import SignedTableaux.Proofs.Formula.Legible
import SignedTableaux.Proofs.Semantics.Skolem

/-!
# Runs keep a tableau satisfiable

If the formula of a session is false in a structure, then some goal of the tableau has nothing but
truths above it, whatever values the introduced variables have; which goal that is may depend on the
values. This holds in the same structure up to the functions that the delta rule introduced.

## Main definitions

* `Spot.Satisfied` — a goal with nothing but truths above it
* `Session.SatisfiedIn` — there is such a goal for every assignment
* `Session.Skolem` — the functions that the delta rule introduced in a run

## Main results

* `Session.Growth.exists_structure`, `Session.Closing.satisfiedIn` — one step
* `Session.exists_structure_after` — a whole run
* `Session.satisfiable_after` — a run on a formula that is read from a text
-/

namespace SignedTableaux

universe u

variable {D : Type u} [Nonempty D] {M : Structure D} {ρ : String → D}

/-- Whether a spot is a goal, open or closed, and every entry above it holds. -/
def Spot.Satisfied (M : Structure D) (ρ : String → D) (p : Spot) : Prop :=
  (∃ closing, p.content = .goal closing) ∧ ∀ e ∈ p.above, e.signed.holds M ρ

namespace Tableau

variable {above : List Entry} {origin : Origin} {next : NodeId}

theorem exists_satisfied_stack {fragments : List Fragment}
    (hfragments : ∀ f ∈ fragments, f.signed.holds M ρ) (habove : ∀ e ∈ above, e.signed.holds M ρ) :
    ∃ p ∈ (stack origin next fragments).spotsFrom above, p.Satisfied M ρ := by
  induction fragments generalizing next above with
  | nil => exact ⟨_, List.mem_singleton_self _, ⟨none, rfl⟩, habove⟩
  | cons fragment others ih =>
    obtain ⟨hfragment, hothers⟩ := List.forall_mem_cons.mp hfragments
    have habove' : ∀ e ∈ entryOf next origin fragment :: above, e.signed.holds M ρ :=
      List.forall_mem_cons.mpr ⟨hfragment, habove⟩
    obtain ⟨p, hp, hsatisfied⟩ := ih hothers habove'
    exact ⟨p, List.mem_cons_of_mem _ hp, hsatisfied⟩

/-- Where an expansion holds, below entries that hold, one of its goals is satisfied. -/
theorem exists_satisfied_ofExpansion {goal : NodeId} {expansion : Expansion}
    (hexpansion : expansion.holds M ρ) (habove : ∀ e ∈ above, e.signed.holds M ρ) :
    ∃ p ∈ (ofExpansion goal next origin expansion).spotsFrom above, p.Satisfied M ρ := by
  cases expansion with
  | linear first others =>
    obtain ⟨hfirst, hothers⟩ := List.forall_mem_cons.mp hexpansion
    have habove' : ∀ e ∈ entryOf goal origin first :: above, e.signed.holds M ρ :=
      List.forall_mem_cons.mpr ⟨hfirst, habove⟩
    obtain ⟨p, hp, hsatisfied⟩ := exists_satisfied_stack hothers habove'
    exact ⟨p, List.mem_cons_of_mem _ hp, hsatisfied⟩
  | branching left right =>
    rcases hexpansion with hleft | hright
    · refine ⟨⟨next + 1, .goal none, entryOf goal origin left :: above⟩, ?_, ⟨none, rfl⟩, ?_⟩
      · exact mem_spotsFrom_branching.mpr (.inr (.inl rfl))
      · exact List.forall_mem_cons.mpr ⟨hleft, habove⟩
    · refine ⟨⟨next + 2, .goal none, entryOf next origin right :: above⟩, ?_, ⟨none, rfl⟩, ?_⟩
      · exact mem_spotsFrom_branching.mpr (.inr (.inr (.inr rfl)))
      · exact List.forall_mem_cons.mpr ⟨hright, habove⟩

end Tableau

namespace Session

variable {s : Session} {φ : Term}

/-- Whether some goal is satisfied under every assignment. -/
def SatisfiedIn (s : Session) (M : Structure D) : Prop :=
  ∀ ρ, ∃ p ∈ s.tableau.spots, p.Satisfied M ρ

theorem satisfiedIn_start (hclosed : φ.Closed) (hfalse : ¬ φ.IsTrueIn M) :
    (ofFormula φ).SatisfiedIn M := by
  intro ρ
  obtain ⟨ρ', hρ'⟩ := not_forall.mp hfalse
  refine ⟨⟨1, .goal none, [⟨0, ⟨.denied, φ⟩, none, none⟩]⟩, ?_, ⟨none, rfl⟩, ?_⟩
  · simp [ofFormula, Tableau.start, Tableau.spots, Tableau.spotsFrom]
  · rw [List.forall_mem_singleton]
    intro hholds
    exact hρ' ((Term.holds_congr rfl (fun _ _ => rfl) fun x hx => absurd hx (hclosed x)).mp hholds)

/-- A rule application keeps a session satisfiable. Where the expanded goal was satisfied, one of
the new goals is; all other goals are as they were. -/
theorem Growth.exists_structure (g : Growth s) (hnodup : s.tableau.ids.Nodup) (h : s.Hygienic φ)
    (hsatisfied : s.SatisfiedIn M) :
    ∃ M' : Structure D,
      M.AgreesOn M' (fun f => g.parts.rule = .delta →
        f ∈ s.names.taken ∨ f ∉ g.session.names.taken) ∧ g.session.SatisfiedIn M' := by
  obtain ⟨M', hagrees, hexpansion⟩ := Decomposition.exists_structure g.parts_eq
    (h.tidy_above g.goal_mem g.source_mem) (h.guards g.goal_mem) g.expand_eq M
  refine ⟨M', hagrees, fun ρ => ?_⟩
  obtain ⟨p, hp, hgoal, habove⟩ := hsatisfied ρ
  -- all names above the goal are taken, so they mean what they meant
  have habove' : ∀ e ∈ p.above, e.signed.holds M' ρ := by
    intro e he
    refine (hagrees.holds_iff fun f hf _ => ?_).mp (habove e he)
    exact .inl ((h.tidy_above hp he).symbols_taken f hf)
  -- the source is above the expanded goal, so where that goal was satisfied the expansion holds
  by_cases hid : p.id = g.goal
  · obtain rfl := Tableau.spot_eq_of_id_eq hnodup hp g.goal_mem hid
    obtain ⟨q, hq, hqsatisfied⟩ := Tableau.exists_satisfied_ofExpansion
      (hexpansion ρ (habove g.source g.source_mem)) habove'
    exact ⟨q, (g.mem_spots_iff hnodup).mpr (.inr hq), hqsatisfied⟩
  · exact ⟨p, (g.mem_spots_iff hnodup).mpr (.inl ⟨hp, hid⟩), hgoal, habove'⟩

theorem Closing.satisfiedIn (c : Closing s) (hsatisfied : s.SatisfiedIn M) :
    c.session.SatisfiedIn M := by
  intro ρ
  obtain ⟨p, hp, ⟨closing, hgoal⟩, habove⟩ := hsatisfied ρ
  refine ⟨p.closeBelow c.ancestor c.σ, ?_, ?_, ?_⟩
  · rw [session, Tableau.spots_closeBelow]
    exact List.mem_map_of_mem hp
  · rw [Spot.closeBelow_content]
    split
    · exact ⟨some c.σ, rfl⟩
    · exact ⟨closing, hgoal⟩
  · rw [Spot.closeBelow_above]
    exact habove

/-- The functions that the delta rule introduced in a run: names that were not taken before such a
step and are taken after it. -/
def Skolem (s : Session) (rs : List Request) (f : String) : Prop :=
  ∃ pre r, pre ++ [r] <+: rs ∧ r.rule? = some .delta ∧ f ∉ (s.after pre).names.taken ∧
    f ∈ (s.after (pre ++ [r])).names.taken

theorem Skolem.concat {rs : List Request} {r : Request} {f : String} (h : s.Skolem rs f) :
    s.Skolem (rs ++ [r]) f := by
  obtain ⟨pre, r', hpre, hstep⟩ := h
  exact ⟨pre, r', hpre.trans (List.prefix_append _ _), hstep⟩

/-- A run keeps a session satisfiable, in the same structure up to Skolem functions. -/
theorem exists_structure_after (hclosed : φ.Closed) (hfalse : ¬ φ.IsTrueIn M)
    (rs : List Request) :
    ∃ M' : Structure D, M.AgreesOn M' (fun f => ¬ (ofFormula φ).Skolem rs f) ∧
      ((ofFormula φ).after rs).SatisfiedIn M' := by
  induction rs using List.reverseRecOn with
  | nil => exact ⟨M, .refl M, satisfiedIn_start hclosed hfalse⟩
  | append_singleton rs r ih =>
    obtain ⟨M', hagrees, hsatisfied⟩ := ih
    have hearlier := hagrees.mono fun f (hf : ¬ (ofFormula φ).Skolem (rs ++ [r]) f) h => hf h.concat
    rcases effect_after φ rs r with ⟨e, h⟩ | ⟨g, hrule, h⟩ | ⟨c, -, h⟩
    · rw [after_concat, h]
      exact ⟨M', hearlier, hsatisfied⟩
    · obtain ⟨M'', hagrees', hsatisfied'⟩ := g.exists_structure
        (wellNumbered_after φ rs).nodup (hygienic_after hclosed rs) hsatisfied
      refine ⟨M'', hearlier.trans (hagrees'.mono fun f hf hdelta => ?_), ?_⟩
      · -- a name that a delta rule did not introduce was taken before or is not taken yet
        by_contra hnew
        rw [not_or, not_not] at hnew
        refine hf ⟨rs, r, List.prefix_rfl, hdelta ▸ hrule, hnew.1, ?_⟩
        rw [after_concat, h]
        exact hnew.2
      · rw [after_concat, h]
        exact hsatisfied'
    · rw [after_concat, h]
      exact ⟨M', hearlier, c.satisfiedIn hsatisfied⟩

/-- Rules keep satisfiability. Where the formula is false, and whatever the introduced variables
stand for, some goal has nothing but truths above it, up to the choice of Skolem functions. -/
theorem satisfiable_after {text : String} {φ : Term} {s : Session} {D : Type u} [Nonempty D]
    (hstart : Session.start text = .ok s) (hφ : Formula.parse text = .ok φ) (rs : List Request)
    (M : Structure D) (hfalse : ¬ φ.IsTrueIn M) :
    ∃ M' : Structure D, M'.pred = M.pred ∧ (∀ f, ¬ s.Skolem rs f → M'.fn f = M.fn f) ∧
      ∀ ρ : String → D, ∃ g ∈ (s.after rs).tableau.goals, ∃ above,
        (s.after rs).tableau.lineage? g = some above ∧ ∀ e ∈ above, e.signed.holds M' ρ := by
  obtain rfl := ofFormula_eq_of_start hstart hφ
  obtain ⟨M', hagrees, hsatisfied⟩ :=
    exists_structure_after (Formula.closed_of_parse hφ) hfalse rs
  refine ⟨M', hagrees.pred_eq.symm, fun f hf => (hagrees.fn_eq f hf).symm, fun ρ => ?_⟩
  obtain ⟨p, hp, hgoal, habove⟩ := hsatisfied ρ
  refine ⟨p.id, (Tableau.mem_goals_iff []).mpr ⟨p, hp, hgoal, rfl⟩, p.above, ?_, habove⟩
  rw [Tableau.lineage?_eq, Tableau.spot?_eq_some (wellNumbered_after φ rs).nodup hp]
  rfl

/-- The formula `exists y. forall x. R(x, y)`. -/
def relatedToAll : Term :=
  .quantified .existential "y" (.quantified .universal "x" (.pred "R" [.var "x", .var "y"]))

/-- The rules for both quantifiers of `relatedToAll`. -/
def relatedToAllRun : List Request :=
  [.applyRule .gamma 1 0, .applyRule .delta 2 1]

/-- The structure of two elements that are related to themselves only. A Skolem function of
`relatedToAll` takes each to the other. -/
def selfRelated : Structure Bool where
  fn _ _ := true
  pred _ ds := ds = [true, true] ∨ ds = [false, false]

theorem satisfiable_after_relatedToAllRun :
    Session.start "exists y. forall x. R(x, y)" = .ok (ofFormula relatedToAll) ∧
      ¬ relatedToAll.IsTrueIn selfRelated ∧
      ∃ M' : Structure Bool, M'.pred = selfRelated.pred ∧
        (∀ f, ¬ (ofFormula relatedToAll).Skolem relatedToAllRun f → M'.fn f = selfRelated.fn f) ∧
        ∀ ρ : String → Bool, ∃ g ∈ ((ofFormula relatedToAll).after relatedToAllRun).tableau.goals,
          ∃ above,
            ((ofFormula relatedToAll).after relatedToAllRun).tableau.lineage? g = some above ∧
              ∀ e ∈ above, e.signed.holds M' ρ := by
  have hstart : Session.start "exists y. forall x. R(x, y)" = .ok (ofFormula relatedToAll) := by
    decide +kernel
  have hfalse : ¬ relatedToAll.IsTrueIn selfRelated := by
    intro htrue
    obtain ⟨d, hd⟩ := htrue fun _ => true
    have hnot := hd (!d)
    cases d <;> simp [selfRelated, Term.holds] at hnot
  exact ⟨hstart, hfalse,
    satisfiable_after hstart (by decide +kernel) relatedToAllRun selfRelated hfalse⟩

end Session

end SignedTableaux
