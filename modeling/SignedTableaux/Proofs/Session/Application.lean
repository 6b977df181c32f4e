import SignedTableaux.Proofs.Session.ClosedGoals
import SignedTableaux.Proofs.Session.Refusals
import SignedTableaux.Proofs.Tableau.Frame

/-!
# When a rule is applied, and what it does

A rule can be applied at an open goal to an entry above it that was not taken apart on this branch,
if it is the rule for that entry, and a quantifier has a name to bind. The new goals then take the
place of the goal, in the list of goals as in that of open goals. The beta rule leads to two of
them, every other rule to one. All other nodes stay as they are, but that the beta rule adds a child
to the parent of the goal.

## Main definitions

* `Session.Applicable` — what a rule application needs
* `Session.ExpandedAt` — what a rule application does at a goal

## Main results

* `Session.sourceEntry_eq_ok_iff`, `Session.exists_applyRule_ok_iff` — which rules can be applied
* `Session.Growth.expandedAt` — what an accepted rule application does
* `Session.applicable_iff_expandedAt` — both, after every run
-/

namespace SignedTableaux

/-- An open goal is a node that is a goal and not closed. -/
theorem Tableau.mem_openGoals_iff_node {t : Tableau} {goal : NodeId} (hnodup : t.ids.Nodup) :
    goal ∈ t.openGoals ↔ ∃ n, t.node? goal = some n ∧ n.isGoal ∧ ¬ n.isClosed := by
  constructor
  · intro hgoal
    obtain ⟨p, hp, hopen, rfl⟩ := (mem_openGoals_iff []).mp hgoal
    obtain ⟨n, hn, hcontent⟩ := exists_node?_of_mem_spots hnodup hp
    rw [hopen] at hcontent
    refine ⟨n, hn, ?_, ?_⟩
    · simp [Node.isGoal, Node.asEntry, hcontent]
    · simp [Node.isClosed, Node.closing?, hcontent]
  · rintro ⟨n, hnode, hgoal, hopen⟩
    obtain ⟨hn, rfl⟩ := mem_nodes_of_node? hnode
    by_contra hnot
    exact hopen ((node_isClosed_iff hnodup hn).mpr ⟨hgoal, hnot⟩)

namespace Session

variable {s : Session} {rule : Rule} {goal source : NodeId}

/-- Whether a rule can be applied at an open goal to the entry `e` of the node `source`. -/
structure Applicable (s : Session) (rule : Rule) (goal source : NodeId) (e : Entry) : Prop where
  goal_mem : goal ∈ s.tableau.openGoals
  source_eq : s.tableau.entryAt? source = some e
  isAncestor : s.tableau.isAncestor source goal
  rule_eq : e.signed.rule? = some rule
  not_expanded : ¬ s.tableau.isExpandedOn source goal
  named : ∀ q x body, e.signed.formula = .quantified q x body → x ≠ ""

/-- Whether the session `s'` is what a rule makes of the session `s` at a goal, where `new` are the
new goals. -/
structure ExpandedAt (s : Session) (rule : Rule) (goal source : NodeId) (new : List NodeId)
    (s' : Session) : Prop where
  length_eq : new.length = if rule = .beta then 2 else 1
  not_mem : ∀ g ∈ new, g ∉ s.tableau.ids
  /-- The new goals stand in the place of the goal. -/
  goals : InPlace goal new s.tableau.goals s'.tableau.goals
  openGoals : InPlace goal new s.tableau.openGoals s'.tableau.openGoals
  length_openGoals : s'.tableau.openGoals.length =
    s.tableau.openGoals.length + if rule = .beta then 1 else 0
  /-- The goal becomes an entry that comes from the rule. -/
  exists_entry : ∃ e, s'.tableau.entryAt? goal = some e ∧ e.origin = some ⟨rule, source⟩
  /-- Every other node is unchanged, but for the parent of the goal where the rule is beta. -/
  kept : ∀ n ∈ s.tableau.nodes, n.id ≠ goal → (rule = .beta → goal ∉ n.children) →
    s'.tableau.node? n.id = some n
  /-- The beta rule adds one child to the parent, right after the goal. -/
  parent : rule = .beta → ∃ n ∈ s.tableau.nodes, s.tableau.IsChild goal n.id ∧
    ∃ c ∉ s.tableau.ids, ∃ children, InPlace goal [goal, c] n.children children ∧
      s'.tableau.node? n.id = some { n with children := children }

/-! ### Acceptance -/

theorem sourceEntry_eq_ok_iff {e : Entry} (hnodup : s.tableau.ids.Nodup) :
    s.sourceEntry rule goal source = .ok e ↔
      goal ∈ s.tableau.openGoals ∧ s.tableau.entryAt? source = some e ∧
        s.tableau.isAncestor source goal ∧ e.signed.rule? = some rule ∧
        ¬ s.tableau.isExpandedOn source goal := by
  rw [Tableau.mem_openGoals_iff_node hnodup, Tableau.entryAt?, Option.bind_eq_some_iff]
  simp only [sourceEntry, node, bind_eq_ok, orFail_eq_ok, require_eq_ok, pure, Except.pure,
    Except.ok.injEq, exists_const]
  constructor
  · rintro ⟨n, hn, hgoal, hopen, m, hm, e', he, habove, hrule, hexpanded, rfl⟩
    exact ⟨⟨n, hn, hgoal, hopen⟩, ⟨m, hm, he⟩, habove, hrule, hexpanded⟩
  · rintro ⟨⟨n, hn, hgoal, hopen⟩, ⟨m, hm, he⟩, habove, hrule, hexpanded⟩
    exact ⟨n, hn, hgoal, hopen, m, hm, e, he, habove, hrule, hexpanded, rfl⟩

/-- A rule application is accepted just if it has all it needs. -/
theorem exists_applyRule_ok_iff (hnodup : s.tableau.ids.Nodup) :
    (∃ new, (s.applyRule rule goal source).1 = .ok new) ↔ ∃ e, s.Applicable rule goal source e := by
  constructor
  · rintro ⟨new, hnew⟩
    cases hsource : s.sourceEntry rule goal source with
    | error e => simp [applyRule, hsource] at hnew
    | ok e =>
      obtain ⟨hgoal, hentry, habove, hrule, hexpanded⟩ := (sourceEntry_eq_ok_iff hnodup).mp hsource
      refine ⟨e, hgoal, hentry, habove, hrule, hexpanded, ?_⟩
      -- a quantifier without a name passes all checks, but its rule fails
      rintro q x body hformula rfl
      have herror := (applyRule_error_iff hnodup hsource).mpr ⟨⟨q, body, hformula⟩, rfl⟩
      rw [hnew] at herror
      cases herror
  · rintro ⟨e, h⟩
    have hsource := (sourceEntry_eq_ok_iff hnodup).mpr
      ⟨h.goal_mem, h.source_eq, h.isAncestor, h.rule_eq, h.not_expanded⟩
    cases hresult : (s.applyRule rule goal source).1 with
    | ok new => exact ⟨new, rfl⟩
    | error e' =>
      obtain ⟨⟨q, body, hformula⟩, -⟩ := (applyRule_error_iff hnodup hsource).mp hresult
      exact absurd rfl (h.named q "" body hformula)

/-! ### Growth -/

namespace Growth

variable (g : Growth s)

theorem rule_eq_beta_iff :
    g.parts.rule = .beta ↔ ∃ left right, g.expansion = .branching left right :=
  (Decomposition.exists_branching_iff g.expand_eq).symm

/-- The topmost new nodes and the new goals. -/
theorem tops_goals_subtree :
    g.parts.rule = .beta ∧ g.subtree.tops = [g.goal, s.tableau.size] ∧
        g.subtree.goals = [s.tableau.size + 1, s.tableau.size + 2] ∨
      g.parts.rule ≠ .beta ∧ g.subtree.tops = [g.goal] ∧
        ∃ new, s.tableau.size ≤ new ∧ g.subtree.goals = [new] := by
  have hlinear {first : Fragment} {others : List Fragment}
      (h : g.expansion = .linear first others) : g.parts.rule ≠ .beta := by
    rw [Ne, g.rule_eq_beta_iff, h]
    simp
  rcases g.shape with ⟨fragment, hexpansion, hsubtree⟩ |
    ⟨first, second, -, hexpansion, -, hsubtree⟩ |
    ⟨left, right, hrule, -, hsubtree⟩ <;> rw [hsubtree]
  · exact .inr ⟨hlinear hexpansion, rfl, _, Nat.le_refl _, rfl⟩
  · exact .inr ⟨hlinear hexpansion, rfl, _, Nat.le_succ _, rfl⟩
  · exact .inl ⟨hrule, rfl, rfl⟩

theorem openGoals_subtree : g.subtree.openGoals = g.subtree.goals := by
  rcases g.shape with ⟨fragment, -, hsubtree⟩ | ⟨first, second, -, -, -, hsubtree⟩ |
    ⟨left, right, -, -, hsubtree⟩ <;> rw [hsubtree] <;> rfl

/-- The goal becomes an entry that comes from the rule. -/
theorem exists_entryAt (h : s.tableau.WellNumbered) :
    ∃ e, g.session.tableau.entryAt? g.goal = some e ∧ e.origin = some g.origin := by
  obtain ⟨e, hid, he⟩ := Tableau.exists_entry_mem_ofExpansion g.goal s.tableau.size g.origin
    g.expansion g.above
  have hspot := (g.mem_spots_iff h.nodup).mpr (.inr he)
  rw [← hid]
  refine ⟨e, Tableau.entryAt?_of_mem_spots (g.wellNumbered h).nodup hspot, g.origin_of_mem ?_⟩
  exact (Tableau.mem_entries_iff g.above).mpr ⟨g.above, he⟩

/-- Every other node has the topmost new nodes in the place of the goal, if it was the parent. -/
theorem node?_adopt (h : s.tableau.WellFormed) {n : Node} (hn : n ∈ s.tableau.nodes)
    (hne : n.id ≠ g.goal) :
    g.session.tableau.node? n.id = some (n.adopt g.goal g.subtree.tops) :=
  Tableau.node?_eq_some (g.wellNumbered h.numbered).nodup
    (Tableau.adopt_mem_nodes_graft g.subtree h g.mem_goals hn hne)

theorem exists_parent (h : s.tableau.WellFormed) :
    ∃ n ∈ s.tableau.nodes, n.id ≠ g.goal ∧ s.tableau.IsChild g.goal n.id := by
  have hnodup := h.numbered.nodup
  obtain ⟨e, upper, habove⟩ := List.exists_cons_of_ne_nil (List.ne_nil_of_mem g.source_mem)
  have hspot := Tableau.mem_spots_of_above g.goal_mem ((List.nil_append _).trans habove.symm).symm
  obtain ⟨n, hn, hid, -⟩ := Tableau.exists_node_of_mem_spots hspot
  have hchild := (Tableau.isChild_goal_iff hnodup g.goal_mem (k := e.id)).mpr (by rw [habove]; rfl)
  have hentry := (Tableau.mem_entries_iff []).mpr ⟨upper, hspot⟩
  have hne := Tableau.id_ne_of_mem_entries hnodup g.mem_goals hentry
  exact ⟨n, hn, hid ▸ hne, hid ▸ hchild⟩

/-- What an accepted rule application does. -/
theorem expandedAt (h : s.tableau.WellFormed) :
    s.ExpandedAt g.parts.rule g.goal g.source.id g.subtree.goals g.session := by
  have hnodup := h.numbered.nodup
  have hopen : InPlace g.goal g.subtree.goals s.tableau.openGoals g.session.tableau.openGoals := by
    rw [← g.openGoals_subtree]
    exact Tableau.inPlace_openGoals g.subtree hnodup g.goal_mem
  have hlength := hopen.length_eq
  have hnew {id : NodeId} (hid : s.tableau.size ≤ id) : id ∉ s.tableau.ids := fun hmem =>
    absurd (h.numbered.mem_ids_iff.mp hmem) (Nat.not_lt.mpr hid)
  have hgoals := Tableau.inPlace_goals g.subtree hnodup g.goal_mem
  rcases g.tops_goals_subtree with ⟨hbeta, htops, hnodes⟩ | ⟨hbeta, htops, new, hsize, hnodes⟩
  · rw [hnodes] at hlength
    refine ⟨by simp [hnodes, hbeta], ?_, hgoals, hopen, ?_, g.exists_entryAt h.numbered,
      fun n hn hne hchild => ?_, fun _ => ?_⟩
    · simp [hnodes, hnew]
    · simpa [hbeta] using hlength
    · rw [g.node?_adopt h hn hne, Node.adopt_of_not_mem (hchild hbeta)]
    · obtain ⟨n, hn, hne, hchild⟩ := g.exists_parent h
      refine ⟨n, hn, hchild, s.tableau.size, hnew (Nat.le_refl _), _, ?_, g.node?_adopt h hn hne⟩
      rw [htops]
      exact Node.inPlace_adopt _ (Tableau.nodup_children hnodup hn)
        ((Tableau.mem_children_iff hnodup hn).mpr hchild)
  · rw [hnodes] at hlength
    refine ⟨by simp [hnodes, hbeta], ?_, hgoals, hopen, ?_, g.exists_entryAt h.numbered,
      fun n hn hne _ => ?_, fun h => absurd h hbeta⟩
    · simpa [hnodes] using hnew hsize
    · simpa [hbeta] using hlength
    · rw [g.node?_adopt h hn hne, htops, Node.adopt_singleton]

end Growth

/-! ### Runs -/

/-- After every run, a rule is applied just if the goal is open, the source is an entry above it
that was not taken apart on this branch, the rule is the one for it, and a quantifier has a name.
The new goals then stand in the place of the goal, and only the parent of the goal may change
otherwise. -/
theorem applicable_iff_expandedAt (φ : Term) (rs : List Request) (rule : Rule)
    (goal source : NodeId) :
    ((∃ new, (((ofFormula φ).after rs).applyRule rule goal source).1 = .ok new) ↔
      ∃ e, ((ofFormula φ).after rs).Applicable rule goal source e) ∧
      ∀ new s', ((ofFormula φ).after rs).applyRule rule goal source = (.ok new, s') →
        ((ofFormula φ).after rs).ExpandedAt rule goal source new s' := by
  have hformed := wellFormed_after φ rs
  have hnodup := hformed.numbered.nodup
  refine ⟨exists_applyRule_ok_iff hnodup, fun new s' happly => ?_⟩
  rcases applyRule_effect hnodup rule goal source with ⟨e, h⟩ | ⟨g, rfl, rfl, rfl, h⟩
  · rw [h] at happly
    cases congrArg Prod.fst happly
  · obtain ⟨rfl, rfl⟩ : g.subtree.goals = new ∧ g.session = s' := by simpa [h] using happly
    exact g.expandedAt hformed

/-- The formula `(P & Q) & R`. -/
def threeAtoms : Term :=
  .binary .and bothAtoms (.pred "R" [])

/-- Where the first of two goals splits, the second one stays behind the new goals. The root can not
be taken apart again below it. -/
theorem expandedAt_threeAtoms :
    let s := (ofFormula threeAtoms).after [.applyRule .beta 1 0]
    s.tableau.openGoals = [3, 4] ∧ (∃ e, s.Applicable .beta 3 1 e) ∧
      s.ExpandedAt .beta 3 1 [6, 7] (s.applyRule .beta 3 1).2 ∧
      (s.applyRule .beta 3 1).2.tableau.openGoals = [6, 7, 4] ∧
      ¬ ∃ e, s.Applicable .beta 3 0 e := by
  intro s
  have haccepted : (s.applyRule .beta 3 1).1 = .ok [6, 7] := by decide +kernel
  have hrefused : (s.applyRule .beta 3 0).1 = .error (.alreadyExpanded 0 3) := by decide +kernel
  obtain ⟨hiff, hexpanded⟩ := applicable_iff_expandedAt threeAtoms [.applyRule .beta 1 0] .beta 3 1
  obtain ⟨hiff', -⟩ := applicable_iff_expandedAt threeAtoms [.applyRule .beta 1 0] .beta 3 0
  refine ⟨by decide +kernel, hiff.mp ⟨_, haccepted⟩, hexpanded _ _ (Prod.ext haccepted rfl),
    by decide +kernel, fun happlicable => ?_⟩
  obtain ⟨new, hnew⟩ := hiff'.mpr happlicable
  cases hrefused.symm.trans hnew

end Session

end SignedTableaux
