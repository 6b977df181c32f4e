import SignedTableaux.Proofs.Session.Representation

/-!
# Requests are carried out as a whole or not at all

A request that is refused leaves the session as it was, nodes and names alike: whatever can fail
does so before a name is drawn and before the tableau changes. A request that is accepted changes
the session, so a session tells whether a request was refused.

## Main results

* `Session.Growth.session_ne`, `Session.Closing.session_ne` — accepted requests change the session
* `Session.refused_iff_unchanged` — refused requests are those that change nothing
-/

namespace SignedTableaux

namespace Session

variable {s : Session}

/-- Where there was a goal there is an entry. -/
theorem Growth.session_ne (g : Growth s) (h : s.tableau.WellNumbered) : g.session ≠ s := by
  intro heq
  obtain ⟨e, hid, he⟩ := Tableau.exists_entry_mem_ofExpansion g.goal s.tableau.size
    ⟨g.parts.rule, g.source.id⟩ g.expansion g.above
  have hentry := (g.mem_spots_iff h.nodup).mpr (.inr he)
  rw [heq] at hentry
  have hspot := Tableau.spot_eq_of_id_eq h.nodup hentry g.goal_mem hid
  exact Content.noConfusion (congrArg Spot.content hspot)

/-- Where there was an open goal there is a closed one. -/
theorem Closing.session_ne (c : Closing s) (h : s.tableau.WellNumbered) : c.session ≠ s := by
  intro heq
  obtain ⟨g, hg⟩ := List.exists_mem_of_ne_nil _ c.openGoals_ne
  obtain ⟨p, hp, hopen, hbelow, -⟩ := Tableau.exists_spot_of_mem_openGoalsBelow hg
  have hmem : p.closeBelow c.ancestor c.σ ∈ c.session.tableau.spots := by
    change _ ∈ (s.tableau.closeBelow c.ancestor c.σ).spots
    rw [Tableau.spots_closeBelow]
    exact List.mem_map_of_mem hp
  rw [heq] at hmem
  have hspot := Tableau.spot_eq_of_id_eq h.nodup hmem hp Spot.closeBelow_id
  have hcontent := congrArg Spot.content hspot
  rw [Spot.closeBelow_content, if_pos ⟨hopen, hbelow⟩, hopen] at hcontent
  cases hcontent

/-- After every run, a request is refused just if it leaves the whole session as it is. Nothing can
fail halfway: every goal has a parent, below which the tableau can fork. -/
theorem refused_iff_unchanged (φ : Term) (rs : List Request) (r : Request) :
    ((∃ e, (((ofFormula φ).after rs).perform r).1 = .error e) ↔
      (((ofFormula φ).after rs).perform r).2 = (ofFormula φ).after rs) ∧
      ∀ n ∈ ((ofFormula φ).after rs).tableau.nodes, n.isGoal → n.parent.isSome := by
  refine ⟨?_, fun n => (wellFormed_after φ rs).parent_isSome⟩
  have hnumbered := wellNumbered_after φ rs
  rcases effect_after φ rs r with ⟨e, h⟩ | ⟨g, -, h⟩ | ⟨c, -, h⟩ <;> rw [h]
  · exact ⟨fun _ => rfl, fun _ => ⟨e, rfl⟩⟩
  · simp [g.session_ne hnumbered]
  · simp [c.session_ne hnumbered]

/-- A negated quantifier that binds the empty name. -/
def unnamedBinder : Term :=
  .not (.quantified .universal "" (.pred "P" []))

/-- The rule for the quantifier passes every check of the request and fails for want of a name. -/
theorem refused_unnamedBinder :
    (((ofFormula unnamedBinder).after [.applyRule .alpha 1 0]).perform (.applyRule .gamma 2 1)).1 =
        .error (.invariant (.unnamedQuantifier .gamma)) ∧
      (((ofFormula unnamedBinder).after [.applyRule .alpha 1 0]).perform
          (.applyRule .gamma 2 1)).2 =
        (ofFormula unnamedBinder).after [.applyRule .alpha 1 0] ∧
      ∃ n ∈ ((ofFormula unnamedBinder).after [.applyRule .alpha 1 0]).tableau.nodes,
        n.isGoal ∧ n.parent.isSome := by
  have hrefused : (((ofFormula unnamedBinder).after [.applyRule .alpha 1 0]).perform
      (.applyRule .gamma 2 1)).1 = .error (.invariant (.unnamedQuantifier .gamma)) := by
    decide +kernel
  have hgoal : ∃ n ∈ ((ofFormula unnamedBinder).after [.applyRule .alpha 1 0]).tableau.nodes,
      n.isGoal := by
    decide +kernel
  obtain ⟨hunchanged, hparent⟩ :=
    refused_iff_unchanged unnamedBinder [.applyRule .alpha 1 0] (.applyRule .gamma 2 1)
  obtain ⟨n, hn, hgoal⟩ := hgoal
  exact ⟨hrefused, hunchanged.mp ⟨_, hrefused⟩, n, hn, hgoal, hparent n hn hgoal⟩

end Session

end SignedTableaux
