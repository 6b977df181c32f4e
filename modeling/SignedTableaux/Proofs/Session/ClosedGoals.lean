import SignedTableaux.Proofs.Session.History
import SignedTableaux.Proofs.Tableau.CommonAncestor
import SignedTableaux.Proofs.Term.Disagreement

/-!
# Every closed goal has a contradiction

A goal keeps the substitution that closed it, but not the two entries that were brought together.
They can still be found: in every session that can be reached there are, for every closed goal, an
affirmed and a denied entry whose instances under the substitution of the goal are equal, and whose
nearest common ancestor is above the goal.

## Main definitions

* `Tableau.Contradiction` — two entries that close a goal under a substitution

## Main results

* `Tableau.Contradiction.mono` — a contradiction stays, whatever happens later
* `Session.Closing.exists_contradiction` — an accepted closure has a contradiction for every goal
  that it closes
* `Session.contradiction_after` — the closed goals of every session that can be reached
-/

namespace SignedTableaux

namespace Tableau

variable {t t' : Tableau} {l r e : Entry} {goal id : NodeId} {σ : Substitution}

/-- The entry of a number, if it is not that of a goal. -/
def entryAt? (t : Tableau) (id : NodeId) : Option Entry :=
  (t.node? id).bind Node.asEntry

theorem entryAt?_of_mem_spots {above : List Entry} (hnodup : t.ids.Nodup)
    (h : ⟨e.id, .entry e, above⟩ ∈ t.spots) : t.entryAt? e.id = some e := by
  obtain ⟨n, hn, hcontent⟩ := exists_node?_of_mem_spots hnodup h
  rw [entryAt?, hn, Option.bind_some, Node.asEntry, hcontent]

theorem Extends.entryAt?_eq (h : t.Extends t') (he : t.entryAt? id = some e) :
    t'.entryAt? id = some e ∧ t'.ancestors id = t.ancestors id := by
  obtain ⟨n, hn, hentry⟩ := Option.bind_eq_some_iff.mp he
  obtain ⟨m, hm, hbecomes, hancestors⟩ := h.kept id n hn
  rw [entryAt?, hm]
  exact ⟨hbecomes.asEntry_eq hentry, hancestors⟩

/-- A node is closed just if it is a goal that is not open. -/
theorem node_isClosed_iff {n : Node} (hnodup : t.ids.Nodup) (hn : n ∈ t.nodes) :
    n.isClosed ↔ n.isGoal ∧ n.id ∉ t.openGoals := by
  obtain ⟨p, hp, hid, hcontent, -⟩ := exists_spot_of_mem_nodes hn
  have hopen : n.id ∈ t.openGoals ↔ n.content = .goal none := by
    rw [mem_openGoals_iff []]
    constructor
    · rintro ⟨q, hq, hgoal, hqid⟩
      rw [← hcontent, ← spot_eq_of_id_eq hnodup hq hp (hqid.trans hid.symm), hgoal]
    · exact fun hgoal => ⟨p, hp, hcontent.trans hgoal, hid⟩
  rw [hopen]
  cases hn' : n.content with
  | entry e => simp [Node.isClosed, Node.closing?, Node.isGoal, Node.asEntry, hn']
  | goal closing => simp [Node.isClosed, Node.closing?, Node.isGoal, Node.asEntry, hn',
      Option.isSome_iff_ne_none]

/-- Whether an affirmed entry `l` and a denied entry `r` have equal instances under `σ`, and their
nearest common ancestor is above the node `goal`. -/
structure Contradiction (t : Tableau) (σ : Substitution) (goal : NodeId) (l r : Entry) : Prop where
  left_eq : t.entryAt? l.id = some l
  right_eq : t.entryAt? r.id = some r
  affirmed : l.signed.sign = .affirmed
  denied : r.signed.sign = .denied
  apply_eq : σ.apply l.signed.formula = σ.apply r.signed.formula
  ancestor : ∃ k, t.commonAncestor? l.id r.id = some k ∧ t.isAncestor k goal

/-- Entries stay as they are, with the same nodes above them, and so do the nodes above a goal. -/
theorem Contradiction.mono {n : Node} (hc : t.Contradiction σ goal l r) (h : t.Extends t')
    (hn : t.node? goal = some n) : t'.Contradiction σ goal l r := by
  obtain ⟨hl, hlabove⟩ := h.entryAt?_eq hc.left_eq
  obtain ⟨hr, hrabove⟩ := h.entryAt?_eq hc.right_eq
  obtain ⟨m, -, -, hgoal⟩ := h.kept goal n hn
  obtain ⟨k, hk, habove⟩ := hc.ancestor
  refine ⟨hl, hr, hc.affirmed, hc.denied, hc.apply_eq, k, ?_, ?_⟩
  · rw [commonAncestor?_congr hlabove hrabove, hk]
  · rwa [isAncestor, hgoal]

end Tableau

namespace Session

variable {s : Session}

/-! ### One closure -/

namespace Closing

variable (c : Closing s) {p : Spot} {closing : Option Substitution}

/-- The ancestor of a closure is an entry, so goals at or below it are below it. -/
theorem isAncestor_of_below (h : s.tableau.WellNumbered) (hp : p ∈ s.tableau.spots)
    (hgoal : p.content = .goal closing) (hbelow : p.below c.ancestor) :
    s.tableau.isAncestor c.ancestor p.id := by
  obtain ⟨above, hleft⟩ := exists_mem_spots_of_entryFor c.left_eq
  have hmem := (h.commonAncestor?_eq_some_iff.mp c.ancestor_eq).1.1
  have hentry := Tableau.mem_entryIds_of_mem_cons_ancestors h.nodup hleft hmem
  rcases hbelow with hid | hbelow
  · refine absurd ?_ (Tableau.not_mem_goals_of_mem_entryIds h.nodup hentry)
    exact (Tableau.mem_goals_iff []).mpr ⟨p, hp, ⟨closing, hgoal⟩, hid⟩
  · obtain ⟨e, he, hid⟩ := List.mem_map.mp hbelow
    rw [← hid]
    exact Tableau.isAncestor_of_mem_above h.nodup hp he

/-- The two entries of a closure are a contradiction for every goal below their ancestor, in one
order or the other. -/
theorem exists_contradiction (h : s.tableau.WellNumbered) (hp : p ∈ s.tableau.spots)
    (hgoal : p.content = .goal closing) (hbelow : p.below c.ancestor) :
    ∃ l r, s.tableau.Contradiction c.σ p.id l r := by
  have habove := c.isAncestor_of_below h hp hgoal hbelow
  obtain ⟨_, hleft⟩ := exists_mem_spots_of_entryFor c.left_eq
  obtain ⟨_, hright⟩ := exists_mem_spots_of_entryFor c.right_eq
  have hleft := Tableau.entryAt?_of_mem_spots h.nodup hleft
  have hright := Tableau.entryAt?_of_mem_spots h.nodup hright
  obtain ⟨u, hu⟩ := c.unify_eq
  have happly := (Substitution.unify_eq_ok_iff.mp hu).2
  have hsign := c.sign_ne
  cases hl : c.left.signed.sign with
  | affirmed =>
    have hr : c.right.signed.sign = .denied := by
      cases hr : c.right.signed.sign with
      | affirmed => exact absurd (hl.trans hr.symm) hsign
      | denied => rfl
    exact ⟨c.left, c.right, hleft, hright, hl, hr, happly, c.ancestor, c.ancestor_eq, habove⟩
  | denied =>
    have hr : c.right.signed.sign = .affirmed := by
      cases hr : c.right.signed.sign with
      | affirmed => rfl
      | denied => exact absurd (hl.trans hr.symm) hsign
    have hancestor := (h.commonAncestor?_comm _ _).trans c.ancestor_eq
    exact ⟨c.right, c.left, hright, hleft, hr, hl, happly.symm, c.ancestor, hancestor, habove⟩

end Closing

/-! ### All closed goals -/

/-- Whether every closed goal has a contradiction under the substitution that closed it. -/
def Contradicted (s : Session) : Prop :=
  ∀ p ∈ s.tableau.spots, ∀ σ, p.content = .goal (some σ) →
    ∃ l r, s.tableau.Contradiction σ p.id l r

theorem Contradicted.start (φ : Term) : (ofFormula φ).Contradicted := by
  intro p hp σ hclosed
  have hp : p.content = .entry ⟨0, ⟨.denied, φ⟩, none, none⟩ ∨ p.content = .goal none := by
    simp only [ofFormula, Tableau.start, Tableau.spots, Tableau.spotsFrom, List.mem_cons,
      List.not_mem_nil, or_false] at hp
    rcases hp with rfl | rfl <;> simp
  rcases hp with hp | hp <;> simp [hp] at hclosed

/-- The new goals of a rule application are open. -/
theorem Growth.contradicted (g : Growth s) (hformed : s.tableau.WellFormed) (h : s.Contradicted) :
    g.session.Contradicted := by
  intro p hp σ hclosed
  have hnodup := hformed.numbered.nodup
  rcases (g.mem_spots_iff hnodup).mp hp with ⟨hold, -⟩ | hnew
  · obtain ⟨l, r, hcontradiction⟩ := h p hold σ hclosed
    obtain ⟨n, hn, -⟩ := Tableau.exists_node?_of_mem_spots hnodup hold
    exact ⟨l, r, hcontradiction.mono (g.extends_session hformed) hn⟩
  · rcases Tableau.content_of_mem_ofExpansion hnew with hopen | ⟨e, hentry, -⟩
    · simp [hopen] at hclosed
    · simp [hentry] at hclosed

/-- A goal that is closed after a closure was closed before, or the closure closed it. -/
theorem Closing.contradicted (c : Closing s) (hformed : s.tableau.WellFormed) (h : s.Contradicted) :
    c.session.Contradicted := by
  intro p hp σ hclosed
  have hnodup := hformed.numbered.nodup
  obtain ⟨q, hq, rfl⟩ : ∃ q ∈ s.tableau.spots, q.closeBelow c.ancestor c.σ = p := by
    rw [session, Tableau.spots_closeBelow] at hp
    exact List.mem_map.mp hp
  rw [Spot.closeBelow_content] at hclosed
  rw [Spot.closeBelow_id]
  obtain ⟨n, hn, -⟩ := Tableau.exists_node?_of_mem_spots hnodup hq
  have hbefore : ∃ l r, s.tableau.Contradiction σ q.id l r := by
    split at hclosed
    · next hnew =>
      obtain rfl : c.σ = σ := by simpa using hclosed
      exact c.exists_contradiction hformed.numbered hq hnew.1 hnew.2
    · exact h q hq σ hclosed
  obtain ⟨l, r, hcontradiction⟩ := hbefore
  exact ⟨l, r, hcontradiction.mono (c.extends_session hformed) hn⟩

theorem contradicted_after (φ : Term) (rs : List Request) :
    ((ofFormula φ).after rs).Contradicted := by
  refine (after_induction (P := fun s => s.tableau.WellFormed ∧ s.Contradicted)
    ?start ?grown ?closed rs).2
  case start => exact ⟨.start _, .start φ⟩
  case grown => exact fun g _ h => ⟨h.1.expand g.mem_goals, g.contradicted h.1 h.2⟩
  case closed => exact fun c _ h => ⟨h.1.closeBelow, c.contradicted h.1 h.2⟩

/-- After every run, a node is closed just if it has a closing substitution, and just if it is a
goal that is not open; and every closed goal has a contradiction under its substitution. -/
theorem contradiction_after (φ : Term) (rs : List Request) :
    ∀ n ∈ ((ofFormula φ).after rs).tableau.nodes,
      (n.isClosed ↔ ∃ σ, n.closing? = some σ) ∧
        (n.isClosed ↔ n.isGoal ∧ n.id ∉ ((ofFormula φ).after rs).tableau.openGoals) ∧
        ∀ σ, n.closing? = some σ →
          ∃ l r, ((ofFormula φ).after rs).tableau.Contradiction σ n.id l r := by
  intro n hn
  have hnodup := (wellNumbered_after φ rs).nodup
  refine ⟨Option.isSome_iff_exists, Tableau.node_isClosed_iff hnodup hn, fun σ hσ => ?_⟩
  obtain ⟨τ, hτ⟩ := Node.exists_closing_of_isClosed (Option.isSome_iff_exists.mpr ⟨σ, hσ⟩)
  obtain rfl : τ = σ := by simpa [Node.closing?, hτ] using hσ
  obtain ⟨p, hp, hid, hcontent, -⟩ := Tableau.exists_spot_of_mem_nodes hn
  rw [← hid]
  exact contradicted_after φ rs p hp τ (hcontent.trans hτ)

/-- A branch is closed before a rule is used on the other one. -/
theorem contradiction_twoDiagonals :
    ∃ n ∈ ((ofFormula twoDiagonals).after twoDiagonalsRun).tableau.nodes, n.id = 9 ∧ n.isClosed ∧
      ∃ σ, n.closing? = some σ ∧
        ∃ l r,
          ((ofFormula twoDiagonals).after twoDiagonalsRun).tableau.Contradiction σ n.id l r := by
  have hgoal : ∃ n ∈ ((ofFormula twoDiagonals).after twoDiagonalsRun).tableau.nodes,
      n.id = 9 ∧ n.isClosed := by
    decide +kernel
  obtain ⟨n, hn, hid, hclosed⟩ := hgoal
  obtain ⟨hiff, -, hcontradiction⟩ := contradiction_after twoDiagonals twoDiagonalsRun n hn
  obtain ⟨σ, hσ⟩ := hiff.mp hclosed
  exact ⟨n, hn, hid, hclosed, σ, hσ, hcontradiction σ hσ⟩

end Session

end SignedTableaux
