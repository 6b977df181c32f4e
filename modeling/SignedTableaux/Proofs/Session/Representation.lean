import Mathlib.Data.List.Perm.Subperm
import SignedTableaux.Proofs.Session.Run
import SignedTableaux.Proofs.Tableau.Graph
import SignedTableaux.Proofs.Tableau.Offspring
import SignedTableaux.Proofs.Tableau.Outline

/-!
# The tableau after a run

Whatever requests are made, the tableau stays well formed, and a node has two children exactly when
one accepted use of the beta rule made them. The second part is about the history of a run: a use of
a rule makes a goal into an entry, perhaps with further entries, and these entries stay. As the
links are right, walks down along child lists and up along parents agree, and so do the views of the
tableau that either of them gives.

## Main definitions

* `Session.Splits` — a request that is an accepted use of the beta rule
* `Session.produced` — the entries that a request adds
* `Session.Traced` — who made the children of a node, in the course of a run

## Main results

* `Session.wellFormed_after` — tableaux are well formed after every run
* `Session.traced_after` — two children of one node are the entries that one use of the beta rule
  added
* `Session.children_after` — where two children of a node come from
* `Session.walksAgree_after` — the walks down and up after every run
* `Session.isNearest_after` — nearest common ancestors after every run
* `Session.isOutline_after`, `Session.isGraph_after` — the outline and the graph after every run
-/

namespace SignedTableaux

/-- Only the beta rule leads to two alternatives. -/
theorem Decomposition.exists_branching_iff {d : Decomposition} {scope : List String}
    {names names' : NameSupply} {expansion : Expansion}
    (h : d.expand scope names = (.ok expansion, names')) :
    (∃ left right, expansion = .branching left right) ↔ d.rule = .beta := by
  cases d with
  | alpha first others =>
    obtain ⟨rfl, -⟩ : _ = expansion ∧ _ := by simpa [expand] using h
    simp [rule]
  | beta left right =>
    obtain ⟨rfl, -⟩ : _ = expansion ∧ _ := by simpa [expand] using h
    simp [rule]
  | gamma sign x body =>
    obtain ⟨rfl, -⟩ := of_expand_gamma h
    simp [rule]
  | delta sign x body =>
    obtain ⟨rfl, -⟩ := of_expand_delta h
    simp [rule]

theorem Request.rule?_of_pair? {r : Request} {ab : NodeId × NodeId} (h : r.pair? = some ab) :
    r.rule? = none := by
  cases r <;> simp_all [rule?, pair?]

namespace Session

/-- Whether a request is an accepted use of the beta rule. -/
def Splits (s : Session) (r : Request) : Prop :=
  r.rule? = some .beta ∧ (s.perform r).1.isOk

/-- The numbers of the entries that a request adds. -/
def produced (s : Session) (r : Request) : List NodeId :=
  (s.perform r).2.tableau.entryIds.filter (· ∉ s.tableau.entryIds)

theorem wellFormed_after (φ : Term) (rs : List Request) :
    ((ofFormula φ).after rs).tableau.WellFormed := by
  refine after_induction (P := fun s => s.tableau.WellFormed) ?_ ?_ ?_ rs
  · exact .start _
  · exact fun g _ h => h.expand g.mem_goals
  · exact fun c _ h => h.closeBelow

/-! ### One use of the beta rule -/

variable {s : Session} {r : Request}

theorem Growth.splits_iff {reply : Reply} (g : Growth s) (hrule : r.rule? = some g.parts.rule)
    (h : s.perform r = (.ok reply, g.session)) :
    s.Splits r ↔ ∃ left right, g.expansion = .branching left right := by
  rw [Decomposition.exists_branching_iff g.expand_eq, Splits, hrule, h]
  simp [Except.isOk, Except.toBool]

/-- A use of the beta rule makes the goal into an entry and adds one other entry. -/
theorem Growth.mem_produced_iff {reply : Except ProofError Reply} {left right : Fragment}
    (g : Growth s) (hformed : s.tableau.WellFormed) (h : s.perform r = (reply, g.session))
    (hexpansion : g.expansion = .branching left right) (c : NodeId) :
    c ∈ s.produced r ↔ c = g.goal ∨ c = s.tableau.size := by
  have hentries : c ∈ g.session.tableau.entryIds ↔
      c ∈ s.tableau.entryIds ∨ c = g.goal ∨ c = s.tableau.size := by
    rw [session, subtree, hexpansion]
    exact Tableau.mem_entryIds_branching g.goal_mem
  have hnew : c = g.goal ∨ c = s.tableau.size → c ∉ s.tableau.entryIds := by
    rintro (rfl | rfl) hc
    · exact Tableau.not_mem_goals_of_mem_entryIds hformed.numbered.nodup hc g.mem_goals
    · exact Nat.lt_irrefl _ (Tableau.lt_size_of_mem_entryIds hformed hc)
  simp only [produced, h, List.mem_filter, hentries, decide_eq_true_eq]
  exact ⟨fun ⟨hc, hnot⟩ => hc.resolve_left hnot, fun hc => ⟨.inr hc, hnew hc⟩⟩

/-- An accepted use of the beta rule adds two entries. -/
theorem Effect.produced_of_splits (h : s.Effect r) (hformed : s.tableau.WellFormed)
    (hsplits : s.Splits r) : ∃ a b, a ≠ b ∧ ∀ c, c ∈ s.produced r ↔ c = a ∨ c = b := by
  rcases h with ⟨e, h⟩ | ⟨g, hrule, h⟩ | ⟨c, hpair, h⟩
  · simp [Splits, h, Except.isOk, Except.toBool] at hsplits
  · obtain ⟨left, right, hexpansion⟩ := (g.splits_iff hrule h).mp hsplits
    refine ⟨g.goal, s.tableau.size, ?_, g.mem_produced_iff hformed h hexpansion⟩
    exact Nat.ne_of_lt (hformed.numbered.mem_ids_iff.mp (Tableau.id_mem_ids g.goal_mem))
  · simp [Splits, Request.rule?_of_pair? hpair] at hsplits

/-! ### The course of a run -/

/-- Who made the children of a node, in the course of a run from `s`. -/
structure Traced (s : Session) (rs : List Request) : Prop where
  /-- Entries stay. -/
  produced_mem : ∀ pre r, pre ++ [r] <+: rs → ∀ c ∈ (s.after pre).produced r,
    c ∈ (s.after rs).tableau.entryIds
  /-- Two children of one node come from a use of the beta rule. -/
  exists_splits : ∀ c c' k, c ≠ c' → (s.after rs).tableau.IsChild c k →
    (s.after rs).tableau.IsChild c' k →
      ∃ pre r, pre ++ [r] <+: rs ∧ (s.after pre).Splits r ∧ c ∈ (s.after pre).produced r
  /-- A use of the beta rule that adds a child of a node adds all its children. -/
  isChild_iff : ∀ pre r, pre ++ [r] <+: rs → (s.after pre).Splits r →
    ∀ c k, (s.after rs).tableau.IsChild c k → c ∈ (s.after pre).produced r →
      ∀ d, (s.after rs).tableau.IsChild d k ↔ d ∈ (s.after pre).produced r

namespace Traced

variable {s : Session} {rs : List Request} {r : Request}

/-- Entries stay, also those that the last request adds. -/
theorem produced_mem_concat (h : s.Traced rs)
    (hentries : ∀ c ∈ (s.after rs).tableau.entryIds, c ∈ (s.after (rs ++ [r])).tableau.entryIds)
    (pre : List Request) (r' : Request) (hpre : pre ++ [r'] <+: rs ++ [r]) (c : NodeId)
    (hc : c ∈ (s.after pre).produced r') : c ∈ (s.after (rs ++ [r])).tableau.entryIds := by
  rcases eq_or_of_prefix_concat hpre with ⟨rfl, rfl⟩ | hpre
  · rw [after_concat]
    exact List.mem_of_mem_filter hc
  · exact hentries c (h.produced_mem pre r' hpre c hc)

/-- A request that changes neither entries nor parents and does not use the beta rule. -/
theorem concat_of_same (h : s.Traced rs) (hsplits : ¬ (s.after rs).Splits r)
    (hchild : ∀ c k, (s.after (rs ++ [r])).tableau.IsChild c k ↔ (s.after rs).tableau.IsChild c k)
    (hentries : ∀ c ∈ (s.after rs).tableau.entryIds,
      c ∈ (s.after (rs ++ [r])).tableau.entryIds) : s.Traced (rs ++ [r]) where
  produced_mem := h.produced_mem_concat hentries
  exists_splits c c' k hne hc hc' := by
    rw [hchild] at hc hc'
    obtain ⟨pre, r', hpre, hrest⟩ := h.exists_splits c c' k hne hc hc'
    exact ⟨pre, r', hpre.trans (List.prefix_append _ _), hrest⟩
  isChild_iff pre r' hpre hsplits' c k hc hproduced d := by
    rw [hchild] at hc ⊢
    rcases eq_or_of_prefix_concat hpre with ⟨rfl, rfl⟩ | hpre
    · exact absurd hsplits' hsplits
    · exact h.isChild_iff pre r' hpre hsplits' c k hc hproduced d

/-- A rule application. -/
theorem grown {reply : Reply} (h : s.Traced rs) (hformed : (s.after rs).tableau.WellFormed)
    (g : Growth (s.after rs)) (hrule : r.rule? = some g.parts.rule)
    (hperform : (s.after rs).perform r = (.ok reply, g.session)) : s.Traced (rs ++ [r]) := by
  have hafter : s.after (rs ++ [r]) = g.session := by rw [after_concat, hperform]
  have hentries : ∀ c ∈ (s.after rs).tableau.entryIds,
      c ∈ (s.after (rs ++ [r])).tableau.entryIds := by
    rw [hafter]
    exact fun c hc => Tableau.mem_entryIds_expand hc
  refine ⟨h.produced_mem_concat hentries, fun c c' k hne hc hc' => ?_,
    fun pre r' hpre hsplits c k hc hproduced d => ?_⟩
  · rw [hafter] at hc hc'
    rcases Tableau.of_two_children hformed g.goal_mem hne hc hc' with
      ⟨hold, hold', -⟩ | ⟨⟨left, right, hexpansion⟩, hnew⟩
    · obtain ⟨pre, r', hpre, hrest⟩ := h.exists_splits c c' k hne hold hold'
      exact ⟨pre, r', hpre.trans (List.prefix_append _ _), hrest⟩
    · refine ⟨rs, r, List.prefix_rfl, (g.splits_iff hrule hperform).mpr ⟨left, right, hexpansion⟩,
        ?_⟩
      exact (g.mem_produced_iff hformed hperform hexpansion c).mpr hnew
  · rw [hafter] at hc ⊢
    rcases eq_or_of_prefix_concat hpre with ⟨rfl, rfl⟩ | hpre
    · obtain ⟨left, right, hexpansion⟩ := (g.splits_iff hrule hperform).mp hsplits
      rw [g.mem_produced_iff hformed hperform hexpansion] at hproduced ⊢
      rw [Growth.session, Growth.subtree, hexpansion] at hc ⊢
      exact Tableau.isChild_branching_iff_of_new hformed g.goal_mem hc hproduced d
    · -- what an earlier request added is an entry already, so its parent gets no other child
      have hentry := h.produced_mem pre r' hpre c hproduced
      have hlt := Tableau.lt_size_of_mem_entryIds hformed hentry
      have hold := (Tableau.isChild_expand_of_lt hformed g.goal_mem hlt).mp hc
      exact (Tableau.isChild_expand_of_mem_entryIds hformed g.goal_mem hold hentry d).trans
        (h.isChild_iff pre r' hpre hsplits c k hold hproduced d)

end Traced

theorem traced_after (φ : Term) (rs : List Request) : (ofFormula φ).Traced rs := by
  induction rs using List.reverseRecOn with
  | nil =>
    refine ⟨fun pre r h => ?_, fun c c' k hne hc hc' => ?_, fun pre r h => ?_⟩
    · exact absurd (List.prefix_nil.mp h) (by simp)
    · obtain ⟨rfl, -⟩ : 1 = c ∧ 0 = k := by
        simpa [Tableau.isChild_iff, ofFormula, Tableau.start, Tableau.spots, Tableau.spotsFrom]
          using hc
      obtain ⟨rfl, -⟩ : 1 = c' ∧ 0 = k := by
        simpa [Tableau.isChild_iff, ofFormula, Tableau.start, Tableau.spots, Tableau.spotsFrom]
          using hc'
      exact absurd rfl hne
    · exact absurd (List.prefix_nil.mp h) (by simp)
  | append_singleton rs r ih =>
    have hformed := wellFormed_after φ rs
    rcases effect_after φ rs r with ⟨e, h⟩ | ⟨g, hrule, h⟩ | ⟨c, hpair, h⟩
    · refine ih.concat_of_same ?_ (fun c k => ?_) (fun c hc => ?_)
      · simp [Splits, h, Except.isOk, Except.toBool]
      · rw [after_concat, h]
      · rwa [after_concat, h]
    · exact ih.grown hformed g hrule h
    · refine ih.concat_of_same ?_ (fun d k => ?_) (fun d hd => ?_)
      · simp [Splits, Request.rule?_of_pair? hpair]
      · rw [after_concat, h]
        exact Tableau.isChild_closeBelow
      · rw [after_concat, h]
        exact Tableau.mem_entryIds_closeBelow.mpr hd

/-- After every run, a node has two children exactly when they are the entries that one accepted use
of the beta rule added, and a use of the beta rule that added one child of a node added just its
children. -/
theorem children_after (φ : Term) (rs : List Request) {n : Node}
    (hn : n ∈ ((ofFormula φ).after rs).tableau.nodes) :
    (n.children.length = 2 ↔
        ∃ pre r, pre ++ [r] <+: rs ∧ ((ofFormula φ).after pre).Splits r ∧
          ∀ c, c ∈ n.children ↔ c ∈ ((ofFormula φ).after pre).produced r) ∧
      ∀ pre r, pre ++ [r] <+: rs → ((ofFormula φ).after pre).Splits r →
        ∀ c ∈ n.children, c ∈ ((ofFormula φ).after pre).produced r →
          ∀ d, d ∈ n.children ↔ d ∈ ((ofFormula φ).after pre).produced r := by
  have hformed := wellFormed_after φ rs
  have htraced := traced_after φ rs
  have hnodup := hformed.numbered.nodup
  -- child lists say the same as parents, and a run keeps track of parents
  have hadded : ∀ pre r, pre ++ [r] <+: rs → ((ofFormula φ).after pre).Splits r →
      ∀ c ∈ n.children, c ∈ ((ofFormula φ).after pre).produced r →
        ∀ d, d ∈ n.children ↔ d ∈ ((ofFormula φ).after pre).produced r := by
    intro pre r hpre hsplits c hc hproduced d
    rw [Tableau.mem_children_iff hnodup hn] at hc ⊢
    exact htraced.isChild_iff pre r hpre hsplits c n.id hc hproduced d
  refine ⟨⟨fun hlength => ?_, fun ⟨pre, r, hpre, hsplits, hmem⟩ => ?_⟩, hadded⟩
  · obtain ⟨a, b, hab⟩ := List.length_eq_two.mp hlength
    have hne : a ≠ b := by
      have hchildren := Tableau.nodup_children hnodup hn
      rw [hab] at hchildren
      simpa using hchildren
    have ha : a ∈ n.children := by simp [hab]
    have hb : b ∈ n.children := by simp [hab]
    obtain ⟨pre, r, hpre, hsplits, hproduced⟩ := htraced.exists_splits a b n.id hne
      (Tableau.isChild_of_mem_children hn ha) (Tableau.isChild_of_mem_children hn hb)
    exact ⟨pre, r, hpre, hsplits, hadded pre r hpre hsplits a ha hproduced⟩
  · obtain ⟨a, b, hne, hproduced⟩ :=
      (effect_after φ pre r).produced_of_splits (wellFormed_after φ pre) hsplits
    have hsubset : [a, b] ⊆ n.children := by
      intro c hc
      rw [hmem, hproduced]
      simpa using hc
    have hge : 2 ≤ n.children.length :=
      (List.subperm_of_subset (by simpa using hne) hsubset).length_le
    exact Nat.le_antisymm (hformed.shaped.length_children_le hn) hge

/-- The formula `P & Q`. -/
def bothAtoms : Term :=
  .binary .and (.pred "P" []) (.pred "Q" [])

/-- After every run the walks down and up agree: from a node down along child lists, and up along
parents to the root. -/
theorem walksAgree_after (φ : Term) (rs : List Request) :
    ((ofFormula φ).after rs).tableau.WalksAgree :=
  (wellFormed_after φ rs).walksAgree

/-- Where a denied conjunction has split, the walk down is not in the order of the numbers: the goal
below the left part has a greater number than the right part. -/
theorem walksAgree_bothAtoms :
    let t := ((ofFormula bothAtoms).after [.applyRule .beta 1 0]).tableau
    t.descendants 0 = [0, 1, 3, 2, 4] ∧ t.ancestors 4 = [2, 0] ∧ t.Visits [0] [0, 1, 3, 2, 4] ∧
      t.Climbs 4 [2, 0] := by
  intro t
  have hagree : t.WalksAgree := walksAgree_after bothAtoms [.applyRule .beta 1 0]
  have hids : 0 ∈ t.ids ∧ 4 ∈ t.ids := by decide +kernel
  have hdown : t.descendants 0 = [0, 1, 3, 2, 4] := by decide +kernel
  have hup : t.ancestors 4 = [2, 0] := by decide +kernel
  exact ⟨hdown, hup, hdown ▸ hagree.visits 0 hids.1, hup ▸ hagree.climbs 4 hids.2⟩

/-- After every run any two nodes have a nearest common ancestor, which is the one found. The order
of the two does not matter, not even for numbers of no nodes. -/
theorem isNearest_after (φ : Term) (rs : List Request) :
    let t := ((ofFormula φ).after rs).tableau
    (∀ a ∈ t.ids, ∀ b ∈ t.ids, ∃ c ∈ t.ids, t.commonAncestor? a b = some c ∧ t.IsNearest a b c) ∧
      ∀ a b, t.commonAncestor? a b = t.commonAncestor? b a := by
  intro t
  have hformed : t.WellFormed := wellFormed_after φ rs
  refine ⟨fun a ha b hb => ?_, hformed.numbered.commonAncestor?_comm⟩
  obtain ⟨p, hp, rfl⟩ := Tableau.exists_spot ha
  obtain ⟨q, hq, rfl⟩ := Tableau.exists_spot hb
  obtain ⟨c, hc⟩ := hformed.exists_commonAncestor hp hq
  have hnearest := hformed.numbered.isNearest hc
  refine ⟨c, ?_, hc, hnearest⟩
  rcases hnearest.left with rfl | habove
  · exact ha
  · rw [hformed.numbered.mem_ids_iff] at ha ⊢
    exact Nat.lt_trans (hformed.numbered.lt_of_isAncestor habove) ha

/-- The goals of both branches of a denied `P | Q & R` have the conjunction as their nearest common
ancestor, which is not the root. -/
theorem isNearest_splitOperand :
    let φ : Term := .binary .or (.pred "P" []) (.binary .and (.pred "Q" []) (.pred "R" []))
    let t := ((ofFormula φ).after [.applyRule .alpha 1 0, .applyRule .beta 3 2]).tableau
    5 ∈ t.ids ∧ 6 ∈ t.ids ∧ t.commonAncestor? 5 6 = some 2 ∧ t.IsNearest 5 6 2 := by
  intro φ t
  have hids : 5 ∈ t.ids ∧ 6 ∈ t.ids := by decide +kernel
  have hfound : t.commonAncestor? 5 6 = some 2 := by decide +kernel
  obtain ⟨c, -, hc, hnearest⟩ := (isNearest_after φ [.applyRule .alpha 1 0, .applyRule .beta 3 2]).1
    5 hids.1 6 hids.2
  obtain rfl : c = 2 := Option.some.inj (hc.symm.trans hfound)
  exact ⟨hids.1, hids.2, hfound, hnearest⟩

/-- After every run the outline has one line for each node, in the order of the walk down from the
root and indented by the number of nodes above. -/
theorem isOutline_after (φ : Term) (rs : List Request) :
    let t := ((ofFormula φ).after rs).tableau
    t.IsOutline t.outline :=
  (wellFormed_after φ rs).isOutline

/-- After every run the graph has one statement for each node and one for each node with a parent,
and every label is read back from between its quotes, whatever characters are in the names of the
formula. -/
theorem isGraph_after (φ : Term) (rs : List Request) :
    let t := ((ofFormula φ).after rs).tableau
    ∃ edges, t.IsGraph t.graph edges :=
  ⟨_, (wellFormed_after φ rs).isGraph⟩

end Session

end SignedTableaux
