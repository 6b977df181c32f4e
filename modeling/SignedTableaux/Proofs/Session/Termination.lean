import SignedTableaux.Proofs.Session.Draw
import SignedTableaux.Proofs.Session.Justification
import SignedTableaux.Proofs.Term.Connectives

/-!
# Rules can be applied only so often

The connectives of the entries that are not used on a branch are what rules can still be applied to
there. A rule application uses one entry and adds its parts, which have one connective less; so it
takes one off what remains on its branch, and where the branch splits, on both sides. A goal with
`n` connectives remaining pays for `2 ^ n - 1` rule applications at and below it, whatever is done
elsewhere.

## Main definitions

* `Entry.remaining`, `Tableau.remaining` — the connectives that remain of an entry, and on a branch
* `Tableau.budget` — the rule applications that all goals pay for
* `Tableau.reaches` — whether one of some entries is above a goal
* `Session.applications` — the accepted rule applications of a run, by the entries that each added

## Main results

* `Session.Growth.remaining_share` — what a rule application takes off its branch
* `Session.Growth.budget_lt`, `Session.Closing.budget_eq` — what one step does to the budget
* `Session.countOn_add_remaining_le` — the rule applications on a branch, and what remains there
* `Session.length_add_budget_le` — the rule applications of a run, and what remains
* `Session.applications_bounded` — how many rule applications there are on a branch and in a run
-/

namespace SignedTableaux

/-! ### Connectives of the parts -/

/-- Taking a formula apart removes one connective. -/
theorem Signed.connectives_eq_parts {s : Signed} {d : Decomposition} (h : s.decomposition? = some d)
    (hrule : d.rule.drawsName = false) :
    s.formula.connectives = (d.parts.map (·.formula.connectives)).sum + 1 := by
  obtain ⟨sign, t⟩ := s
  cases isOf_of_decomposition? h with
  | not hparts => simp [hparts, Term.connectives]
  | binary hparts => simp [hparts, Term.connectives]
  | quantified _ hdraws => cases hrule.symm.trans hdraws

namespace Session

variable {s : Session}

/-- What is put in for a bound name has no connectives. -/
theorem Draw.connectives_image (d : Draw) (scope : List String) :
    (d.image scope).connectives = 0 := by
  unfold Draw.image
  split
  · rfl
  · rw [Term.connectives_app, List.map_map]
    exact List.sum_eq_zero (by simp [Term.connectives])

theorem Growth.Draws.connectives_source {g : Growth s} {ds : List Draw} (h : g.Draws ds) :
    g.source.signed.formula.connectives =
      (g.expansion.fragments.map (·.signed.formula.connectives)).sum + 1 := by
  cases h with
  | nothing hrule _ hfragments =>
    rw [hfragments, List.map_map]
    exact Signed.connectives_eq_parts g.parts_eq hrule
  | name d stem _ _ _ hsource hexpansion =>
    rw [hsource, hexpansion]
    simp [Expansion.fragments, Term.connectives,
      Term.connectives_substitute (d.connectives_image _)]

end Session

/-! ### What remains on a branch -/

/-- The connectives that remain of an entry on a branch: none if some entry of the branch comes from
it, else all of its formula. -/
def Entry.remaining (above : List Entry) (e : Entry) : Nat :=
  if above.any (·.comesFrom e.id) then 0 else e.signed.formula.connectives

namespace Tableau

/-- The connectives that remain on a branch. -/
def remaining (above : List Entry) : Nat :=
  (above.map (Entry.remaining above)).sum

/-- The rule applications that the goals of a part of a tableau pay for, below the given entries. -/
def budget (above : List Entry) : Tableau → Nat
  | .goal _ _ => 2 ^ remaining above - 1
  | .step entry rest => rest.budget (entry :: above)
  | .fork left right => left.budget above + right.budget above

/-- Whether one of the given entries is above a goal. -/
def reaches (t : Tableau) (goal : NodeId) (es : List Entry) : Bool :=
  es.any fun e => t.isAncestor e.id goal

variable {t : Tableau} {above : List Entry} {p : Spot}

theorem reaches_iff {es : List Entry} (hnodup : t.ids.Nodup) (hp : p ∈ t.spots)
    (hes : ∀ e ∈ es, e ∈ t.entries) :
    t.reaches p.id es = true ↔ es.any (· ∈ p.above) = true := by
  simp only [reaches, List.any_eq_true, decide_eq_true_eq]
  refine exists_congr fun e => and_congr_right fun he => ?_
  obtain ⟨upper, hspot⟩ := (mem_entries_iff []).mp (hes e he)
  exact ⟨mem_above_of_isAncestor hnodup hp hspot, isAncestor_of_mem_above hnodup hp⟩

/-- Grafting takes away what the goal pays for and adds what is paid for by the goals of what is
grafted. -/
theorem budget_graft {g : NodeId} {closing : Option Substitution} {upper : List Entry}
    (sub : Tableau) (hnodup : t.ids.Nodup) (hg : ⟨g, .goal closing, upper⟩ ∈ t.spotsFrom above) :
    (t.graft g sub).budget above + (2 ^ remaining upper - 1) =
      t.budget above + sub.budget upper := by
  induction t generalizing above with
  | goal id closing' =>
    obtain ⟨rfl, -, rfl⟩ := Spot.mk.inj (List.mem_singleton.mp hg)
    rw [graft, if_pos rfl, budget, Nat.add_comm]
  | step e rest ih =>
    rcases List.mem_cons.mp hg with heq | hg
    · cases heq
    · exact ih (List.nodup_cons.mp hnodup).2 hg
  | fork l r ihl ihr =>
    obtain ⟨hl, hr, hdisjoint⟩ := List.nodup_append'.mp hnodup
    rcases List.mem_append.mp hg with hgl | hgr
    · have hright : g ∉ r.goals := fun h => hdisjoint (id_mem_ids hgl) (goals_subset_ids h)
      rw [graft, graft_of_not_mem hright, budget, budget]
      have hsum := ihl hl hgl
      omega
    · have hleft : g ∉ l.goals := fun h => hdisjoint (goals_subset_ids h) (id_mem_ids hgr)
      rw [graft, graft_of_not_mem hleft, budget, budget]
      have hsum := ihr hr hgr
      omega

theorem budget_reopen (t : Tableau) (above : List Entry) :
    t.reopen.budget above = t.budget above := by
  induction t generalizing above with
  | goal id closing => rfl
  | step e rest ih => exact ih (e :: above)
  | fork l r ihl ihr => exact congrArg₂ (· + ·) (ihl above) (ihr above)

/-- On a branch no entry is repeated. -/
theorem WellNumbered.nodup_above (h : t.WellNumbered) (hp : p ∈ t.spots) : p.above.Nodup := by
  refine (h.pairwise_above hp).imp ?_
  rintro e _ hlt rfl
  exact Nat.lt_irrefl _ hlt

end Tableau

namespace Session

variable {s : Session}

/-! ### One rule application -/

namespace Growth

variable (g : Growth s)

theorem mem_entries_of_mem_above {e : Entry} (he : e ∈ g.above) : e ∈ s.tableau.entries :=
  Tableau.mem_entries_of_mem_branch g.goal_mem he

/-- New entries have new numbers, but for the number of the goal. -/
theorem id_ne_of_mem_subtree (hnumbered : s.tableau.WellNumbered) {e e' : Entry}
    (he : e ∈ g.subtree.entries) (he' : e' ∈ s.tableau.entries) : e'.id ≠ e.id := by
  obtain ⟨upper, hspot⟩ := (Tableau.mem_entries_iff []).mp he
  obtain ⟨upper', hspot'⟩ := (Tableau.mem_entries_iff []).mp he'
  obtain ⟨n, hperm⟩ := Tableau.ids_ofExpansion_perm g.goal s.tableau.size g.origin g.expansion
  have hlt := hnumbered.mem_ids_iff.mp (Tableau.id_mem_ids hspot')
  have hgoal := Tableau.id_ne_of_mem_entries hnumbered.nodup g.mem_goals he'
  rcases List.mem_cons.mp (hperm.mem_iff.mp (Tableau.id_mem_ids hspot)) with hid | hid
  · exact fun heq => hgoal (heq.trans hid)
  · exact Nat.ne_of_lt (Nat.lt_of_lt_of_le hlt (List.mem_range'_1.mp hid).1)

theorem not_mem_entries_of_mem_subtree (hnumbered : s.tableau.WellNumbered) {e : Entry}
    (he : e ∈ g.subtree.entries) : e ∉ s.tableau.entries :=
  fun hold => g.id_ne_of_mem_subtree hnumbered he hold rfl

theorem comesFrom_eq {e : Entry} (he : e ∈ g.subtree.entries) (id : NodeId) :
    e.comesFrom id = decide (g.source.id = id) := by
  rw [Entry.comesFrom, g.origin_of_mem he]
  rfl

/-- Nothing comes from a new entry yet. -/
theorem remaining_of_mem_share (hnumbered : s.tableau.WellNumbered) (hsourced : s.Sourced)
    {share : List Entry} (hshare : share ⊆ g.subtree.entries) {e : Entry} (he : e ∈ share) :
    e.remaining (share ++ g.above) = e.signed.formula.connectives := by
  have hnone : (share ++ g.above).any (·.comesFrom e.id) = false := by
    rw [List.any_eq_false]
    intro e' he' hcomes
    rcases List.mem_append.mp he' with he' | he'
    · rw [g.comesFrom_eq (hshare he'), decide_eq_true_eq] at hcomes
      exact g.id_ne_of_mem_subtree hnumbered (hshare he) (g.mem_entries_of_mem_above g.source_mem)
        hcomes
    · obtain ⟨origin, horigin, hid⟩ : ∃ origin, e'.origin = some origin ∧ origin.source = e.id := by
        simpa [Entry.comesFrom, Option.any_eq_true] using hcomes
      obtain ⟨lower, upper, habove⟩ := List.append_of_mem he'
      obtain ⟨source, hsource, hsourceId⟩ :=
        hsourced e' upper origin (Tableau.mem_spots_of_above g.goal_mem habove) horigin
      have hmem : source ∈ g.above := by simp [habove, hsource]
      exact g.id_ne_of_mem_subtree hnumbered (hshare he) (g.mem_entries_of_mem_above hmem)
        (hsourceId.trans hid)
  rw [Entry.remaining, hnone]
  rfl

/-- Of the entries above the goal, only the source is used by the rule application. -/
theorem remaining_of_ne_source (hnodup : s.tableau.ids.Nodup) {share : List Entry}
    (hshare : share ⊆ g.subtree.entries) {e : Entry} (he : e ∈ g.above) (hne : e ≠ g.source) :
    e.remaining (share ++ g.above) = e.remaining g.above := by
  have hnone : share.any (·.comesFrom e.id) = false := by
    rw [List.any_eq_false]
    intro e' he' hcomes
    rw [g.comesFrom_eq (hshare he'), decide_eq_true_eq] at hcomes
    exact hne (Tableau.entry_eq_of_id_eq hnodup (g.mem_entries_of_mem_above he)
      (g.mem_entries_of_mem_above g.source_mem) hcomes.symm)
  rw [Entry.remaining, Entry.remaining, List.any_append, hnone, Bool.false_or]

theorem remaining_source (hnumbered : s.tableau.WellNumbered) (hsourced : s.Sourced) :
    g.source.remaining g.above = g.source.signed.formula.connectives := by
  have hnone : g.above.any (·.comesFrom g.source.id) = false := by
    rw [List.any_eq_false]
    exact fun e he => by simp [g.not_derived hnumbered hsourced e he]
  rw [Entry.remaining, hnone]
  rfl

theorem remaining_source_share {share : List Entry} (hshare : share ⊆ g.subtree.entries)
    (hne : share ≠ []) : g.source.remaining (share ++ g.above) = 0 := by
  obtain ⟨e, rest, rfl⟩ := List.exists_cons_of_ne_nil hne
  rw [Entry.remaining, List.cons_append, List.any_cons, g.comesFrom_eq (hshare List.mem_cons_self)]
  simp

/-- A rule application takes the connectives of its source off the branch and adds those of the new
entries. -/
theorem remaining_share (hnumbered : s.tableau.WellNumbered) (hsourced : s.Sourced)
    {share : List Entry} (hshare : share ⊆ g.subtree.entries) (hne : share ≠ []) :
    Tableau.remaining (share ++ g.above) + g.source.signed.formula.connectives =
      Tableau.remaining g.above + (share.map (·.signed.formula.connectives)).sum := by
  have hnodup := hnumbered.nodup_above g.goal_mem
  have hnew : share.map (Entry.remaining (share ++ g.above)) =
      share.map (·.signed.formula.connectives) :=
    List.map_congr_left fun e he => g.remaining_of_mem_share hnumbered hsourced hshare he
  have hothers : (g.above.erase g.source).map (Entry.remaining (share ++ g.above)) =
      (g.above.erase g.source).map (Entry.remaining g.above) := by
    refine List.map_congr_left fun e he => ?_
    obtain ⟨hsource, he⟩ := hnodup.mem_erase_iff.mp he
    exact g.remaining_of_ne_source hnumbered.nodup hshare he hsource
  have hbefore := List.sum_map_erase (Entry.remaining g.above) g.source_mem
  have hafter := List.sum_map_erase (Entry.remaining (share ++ g.above)) g.source_mem
  rw [g.remaining_source_share hshare hne, hothers] at hafter
  rw [g.remaining_source hnumbered hsourced] at hbefore
  rw [Tableau.remaining, Tableau.remaining, List.map_append, List.sum_append, hnew]
  omega

/-- A rule application takes at least one connective off what remains on its branch, at each of its
new goals. -/
theorem remaining_lt (hnumbered : s.tableau.WellNumbered) (hsourced : s.Sourced) {p : Spot}
    {closing : Option Substitution} (hp : p ∈ g.subtree.spotsFrom g.above)
    (hgoal : p.content = .goal closing) :
    Tableau.remaining p.above < Tableau.remaining g.above := by
  obtain ⟨share, habove, hshare⟩ := g.exists_share hp hgoal
  have hsource := g.draws_spec.connectives_source
  -- the share of a branch has no more connectives than all fragments, and there is something in it
  have hparts : share ≠ [] ∧ (share.map (·.signed.formula.connectives)).sum ≤
      (g.expansion.fragments.map (·.signed.formula.connectives)).sum := by
    rcases g.shape with ⟨fragment, hexpansion, hsubtree⟩ |
      ⟨first, second, -, hexpansion, -, hsubtree⟩ | ⟨left, right, -, hexpansion, hsubtree⟩ <;>
      rw [hexpansion, hsubtree] at hshare <;> rw [hexpansion]
    · obtain rfl := hshare
      simp [Tableau.entries, Tableau.entryOf, Expansion.fragments]
    · obtain rfl := hshare
      simp [Tableau.entries, Tableau.entryOf, Expansion.fragments, Nat.add_comm]
    · obtain ⟨e, he, rfl⟩ := hshare
      rcases List.mem_pair.mp he with rfl | rfl <;> simp [Tableau.entryOf, Expansion.fragments]
  have hremaining := g.remaining_share hnumbered hsourced hshare.subset hparts.1
  rw [habove]
  omega

end Growth

theorem two_pow_sub_one_add_lt {a b n : Nat} (ha : a < n) (hb : b < n) :
    2 ^ a - 1 + (2 ^ b - 1) < 2 ^ n - 1 := by
  obtain ⟨m, rfl⟩ : ∃ m, n = m + 1 := Nat.exists_eq_succ_of_ne_zero (Nat.ne_zero_of_lt ha)
  have hapow : 2 ^ a ≤ 2 ^ m := Nat.pow_le_pow_right Nat.two_pos (Nat.le_of_lt_succ ha)
  have hbpow : 2 ^ b ≤ 2 ^ m := Nat.pow_le_pow_right Nat.two_pos (Nat.le_of_lt_succ hb)
  have hapos : 0 < 2 ^ a := Nat.two_pow_pos a
  have hbpos : 0 < 2 ^ b := Nat.two_pow_pos b
  rw [Nat.pow_succ]
  omega

/-- The new goals pay for less than the goal in whose place they are. -/
theorem Growth.budget_subtree_lt (g : Growth s) (hnumbered : s.tableau.WellNumbered)
    (hsourced : s.Sourced) :
    g.subtree.budget g.above < 2 ^ Tableau.remaining g.above - 1 := by
  have hlt : ∀ p ∈ g.subtree.spotsFrom g.above, p.content = .goal none →
      Tableau.remaining p.above < Tableau.remaining g.above :=
    fun p hp => g.remaining_lt hnumbered hsourced hp
  rcases g.shape with ⟨fragment, -, hsubtree⟩ | ⟨first, second, -, -, -, hsubtree⟩ |
    ⟨left, right, -, -, hsubtree⟩ <;> rw [hsubtree] at hlt ⊢
  · have hgoal := by simpa [Tableau.spotsFrom] using hlt
    exact two_pow_sub_one_add_lt (b := 0) hgoal (Nat.zero_lt_of_lt hgoal)
  · have hgoal := by simpa [Tableau.spotsFrom] using hlt
    exact two_pow_sub_one_add_lt (b := 0) hgoal (Nat.zero_lt_of_lt hgoal)
  · have hgoals := by simpa [Tableau.spotsFrom] using hlt
    exact two_pow_sub_one_add_lt hgoals.1 hgoals.2

/-- A rule application lowers the budget. -/
theorem Growth.budget_lt (g : Growth s) (hnumbered : s.tableau.WellNumbered)
    (hsourced : s.Sourced) : g.session.tableau.budget [] < s.tableau.budget [] := by
  have hgraft := Tableau.budget_graft g.subtree hnumbered.nodup g.goal_mem
  have hsubtree := g.budget_subtree_lt hnumbered hsourced
  change (s.tableau.graft g.goal g.subtree).budget [] < _
  omega

/-- A closure leaves the budget as it is. -/
theorem Closing.budget_eq (c : Closing s) : c.session.tableau.budget [] = s.tableau.budget [] := by
  rw [Closing.session, ← Tableau.budget_reopen, Tableau.reopen_closeBelow, Tableau.budget_reopen]

/-! ### Whole runs -/

/-- Whether a request is a rule application that is accepted. -/
def applies (s : Session) (r : Request) : Bool :=
  r.rule?.isSome && (s.perform r).1.isOk

/-- The entries that a request adds. -/
def added (s : Session) (r : Request) : List Entry :=
  (s.perform r).2.tableau.entries.filter (· ∉ s.tableau.entries)

/-- The accepted rule applications of a run, in order, each as the list of the entries that it
added. -/
def applications (s : Session) : List Request → List (List Entry)
  | [] => []
  | r :: rs => (if s.applies r then [s.added r] else []) ++ (s.perform r).2.applications rs

theorem applications_concat (s : Session) (rs : List Request) (r : Request) :
    s.applications (rs ++ [r]) =
      s.applications rs ++ if (s.after rs).applies r then [(s.after rs).added r] else [] := by
  induction rs generalizing s with
  | nil => exact List.append_nil _
  | cons r' rs ih =>
    rw [List.cons_append, applications, applications, ih, List.append_assoc]
    rfl

variable {r : Request}

theorem applies_of_refused {e : ProofError} (h : s.perform r = (.error e, s)) :
    s.applies r = false := by
  rw [applies, h]
  exact Bool.and_false _

theorem applies_of_pair {ab : NodeId × NodeId} (h : r.pair? = some ab) : s.applies r = false := by
  rw [applies, Request.rule?_of_pair? h]
  rfl

theorem Growth.applies_eq {reply : Reply} (g : Growth s) (hrule : r.rule? = some g.parts.rule)
    (h : s.perform r = (.ok reply, g.session)) : s.applies r = true := by
  rw [applies, hrule, h]
  rfl

/-- A rule application adds the entries of what it puts in the place of its goal. -/
theorem Growth.mem_added_iff {reply : Except ProofError Reply} (g : Growth s)
    (hnumbered : s.tableau.WellNumbered) (h : s.perform r = (reply, g.session)) {e : Entry} :
    e ∈ s.added r ↔ e ∈ g.subtree.entries := by
  rw [added, h, List.mem_filter, g.mem_entries_iff hnumbered.nodup, decide_eq_true_eq]
  constructor
  · rintro ⟨hold | hnew, hnot⟩
    · exact absurd hold hnot
    · exact hnew
  · exact fun hnew => ⟨.inr hnew, g.not_mem_entries_of_mem_subtree hnumbered hnew⟩

/-- What a rule application added stays. -/
theorem mem_entries_of_mem_applications {φ : Term} {rs : List Request} {es : List Entry} {e : Entry}
    (hes : es ∈ (ofFormula φ).applications rs) (he : e ∈ es) :
    e ∈ ((ofFormula φ).after rs).tableau.entries := by
  induction rs using List.reverseRecOn with
  | nil => cases hes
  | append_singleton rs r ih =>
    rw [applications_concat] at hes
    rw [after_concat]
    rcases effect_after φ rs r with ⟨_, h⟩ | ⟨g, hrule, h, -⟩ | ⟨c, hpair, h⟩
    · rw [applies_of_refused h] at hes
      rw [h]
      exact ih (by simpa using hes)
    · have hnumbered := wellNumbered_after φ rs
      rw [g.applies_eq hrule h, if_pos rfl] at hes
      rw [h, g.mem_entries_iff hnumbered.nodup]
      rcases List.mem_append.mp hes with hes | hes
      · exact .inl (ih hes)
      · obtain rfl := List.mem_singleton.mp hes
        exact .inr ((g.mem_added_iff hnumbered h).mp he)
    · rw [applies_of_pair hpair] at hes
      rw [h, Closing.session, Tableau.entries_closeBelow]
      exact ih (by simpa using hes)

/-- Every accepted rule application takes at least one off the budget. -/
theorem length_add_budget_le (φ : Term) (rs : List Request) :
    ((ofFormula φ).applications rs).length + ((ofFormula φ).after rs).tableau.budget [] ≤
      2 ^ φ.connectives - 1 := by
  induction rs using List.reverseRecOn with
  | nil =>
    have hbudget : (ofFormula φ).tableau.budget [] = 2 ^ φ.connectives - 1 := by
      simp [ofFormula, Tableau.start, Tableau.budget, Tableau.remaining, Entry.remaining,
        Entry.comesFrom]
    rw [after_nil, hbudget]
    exact Nat.le_of_eq (Nat.zero_add _)
  | append_singleton rs r ih =>
    rw [applications_concat, after_concat]
    rcases effect_after φ rs r with ⟨_, h⟩ | ⟨g, hrule, h, -⟩ | ⟨c, hpair, h⟩
    · rw [applies_of_refused h, h]
      simpa using ih
    · have hlt := g.budget_lt (wellNumbered_after φ rs) (sourced_after φ rs)
      rw [g.applies_eq hrule h, if_pos rfl, h, List.length_append, List.length_singleton]
      change _ + g.session.tableau.budget [] ≤ _
      omega
    · rw [applies_of_pair hpair, h, c.budget_eq]
      simpa using ih

/-- The rule applications among those given that added an entry to a branch. -/
def countOn (above : List Entry) (applications : List (List Entry)) : Nat :=
  applications.countP (·.any (· ∈ above))

theorem countOn_concat (above : List Entry) (applications : List (List Entry)) (es : List Entry) :
    countOn above (applications ++ [es]) =
      countOn above applications + if es.any (· ∈ above) then 1 else 0 := by
  rw [countOn, List.countP_append, List.countP_singleton]
  rfl

/-- On the branch of another goal a rule application does not count. -/
theorem Growth.countOn_old (g : Growth s) (hnumbered : s.tableau.WellNumbered) {p : Spot}
    (hp : p ∈ s.tableau.spots) {closing : Option Substitution} (hgoal : p.content = .goal closing)
    {es : List Entry} (hes : ∀ e, e ∈ es ↔ e ∈ g.subtree.entries)
    (applications : List (List Entry)) :
    countOn p.above (applications ++ [es]) = countOn p.above applications := by
  have hnone : es.any (· ∈ p.above) = false := by
    rw [List.any_eq_false]
    intro e he hmem
    refine g.not_mem_entries_of_mem_subtree hnumbered ((hes e).mp he)
      (Tableau.mem_entries_of_mem_branch hp ?_)
    rw [Spot.branch, hgoal]
    exact of_decide_eq_true hmem
  rw [countOn_concat, hnone]
  rfl

/-- On the branch of a new goal a rule application counts once, and all others count as before. -/
theorem Growth.countOn_new_le (g : Growth s) (hnumbered : s.tableau.WellNumbered)
    {share : List Entry} (hshare : share ⊆ g.subtree.entries) {applications : List (List Entry)}
    (hold : ∀ es ∈ applications, ∀ e ∈ es, e ∈ s.tableau.entries) (es : List Entry) :
    countOn (share ++ g.above) (applications ++ [es]) ≤ countOn g.above applications + 1 := by
  have hsame : countOn (share ++ g.above) applications = countOn g.above applications := by
    refine List.countP_congr fun es' hes' => ?_
    simp only [List.any_eq_true, decide_eq_true_eq]
    refine exists_congr fun e => and_congr_right fun he => ?_
    have hnot : e ∉ share := fun hmem =>
      g.not_mem_entries_of_mem_subtree hnumbered (hshare hmem) (hold es' hes' e he)
    simp [hnot]
  rw [countOn_concat, hsame]
  split <;> omega

/-- Every accepted rule application takes at least one off what remains on its branch. -/
theorem countOn_add_remaining_le (φ : Term) (rs : List Request) :
    ∀ p ∈ ((ofFormula φ).after rs).tableau.spots, ∀ closing, p.content = .goal closing →
      countOn p.above ((ofFormula φ).applications rs) + Tableau.remaining p.above ≤
        φ.connectives := by
  induction rs using List.reverseRecOn with
  | nil =>
    intro p hp closing hgoal
    have hp : p = ⟨0, .entry (startEntry φ), []⟩ ∨ p = ⟨1, .goal none, [startEntry φ]⟩ := by
      simpa [ofFormula, Tableau.start, Tableau.spots, Tableau.spotsFrom, startEntry] using hp
    rcases hp with rfl | rfl
    · cases hgoal
    · simp [countOn, applications, Tableau.remaining, Entry.remaining, Entry.comesFrom, startEntry]
  | append_singleton rs r ih =>
    intro p hp closing hgoal
    rw [after_concat] at hp
    rw [applications_concat]
    rcases effect_after φ rs r with ⟨_, h⟩ | ⟨g, hrule, h, -⟩ | ⟨c, hpair, h⟩ <;> rw [h] at hp
    · rw [applies_of_refused h]
      simpa using ih p hp closing hgoal
    · have hnumbered := wellNumbered_after φ rs
      rw [g.applies_eq hrule h, if_pos rfl]
      rcases (g.mem_spots_iff hnumbered.nodup).mp hp with ⟨hold, -⟩ | hnew
      · rw [g.countOn_old hnumbered hold hgoal fun e => g.mem_added_iff hnumbered h]
        exact ih p hold closing hgoal
      · have hbefore := ih _ g.goal_mem none rfl
        have hlt := g.remaining_lt hnumbered (sourced_after φ rs) hnew hgoal
        obtain ⟨share, habove, hshare⟩ := g.exists_share hnew hgoal
        have hcount := g.countOn_new_le hnumbered hshare.subset
          (fun es hes e he => mem_entries_of_mem_applications hes he)
          (((ofFormula φ).after rs).added r)
        rw [← habove] at hcount
        simp only at hbefore
        omega
    · obtain ⟨q, hq, closing', hcontent, habove⟩ := Tableau.exists_goal_of_mem_closeBelow hp hgoal
      rw [applies_of_pair hpair, ← habove]
      simpa using ih q hq closing' hcontent

/-- Whatever a session is asked to do, a branch has no more rule applications than the formula has
connectives and quantifiers, and the run has less than two to their number. -/
theorem applications_bounded (φ : Term) (rs : List Request) :
    (∀ goal ∈ ((ofFormula φ).after rs).tableau.goals,
      ((ofFormula φ).applications rs).countP (((ofFormula φ).after rs).tableau.reaches goal) ≤
        φ.connectives) ∧
      ((ofFormula φ).applications rs).length ≤ 2 ^ φ.connectives - 1 := by
  have hnodup := (wellNumbered_after φ rs).nodup
  constructor
  · intro goal hgoal
    obtain ⟨p, hp, ⟨closing, hcontent⟩, rfl⟩ := (Tableau.mem_goals_iff []).mp hgoal
    have hcount := countOn_add_remaining_le φ rs p hp closing hcontent
    have hreaches : ((ofFormula φ).applications rs).countP
        (((ofFormula φ).after rs).tableau.reaches p.id) =
          countOn p.above ((ofFormula φ).applications rs) := by
      refine List.countP_congr fun es hes => ?_
      exact Tableau.reaches_iff hnodup hp fun e he => mem_entries_of_mem_applications hes he
    omega
  · have hlength := length_add_budget_le φ rs
    omega

/-- Both connectives of `P & ~P` are taken apart on the branch of goal 5, so the bound is reached
there. -/
theorem applications_contradiction :
    let φ : Term := .binary .and (.pred "P" []) (.not (.pred "P" []))
    let s := ofFormula φ
    let rs : List Request :=
      [.applyRule .beta 1 0, .applyRule .gamma 3 0, .applyRuleNearest .alpha 4]
    5 ∈ (s.after rs).tableau.goals ∧ (s.applications rs).map (·.map Entry.id) = [[1, 2], [4]] ∧
      φ.connectives ≤ (s.applications rs).countP ((s.after rs).tableau.reaches 5) ∧
      (s.applications rs).countP ((s.after rs).tableau.reaches 5) ≤ φ.connectives ∧
      (s.applications rs).length ≤ 2 ^ φ.connectives - 1 := by
  intro φ s rs
  have hgoal : 5 ∈ (s.after rs).tableau.goals := by decide +kernel
  obtain ⟨hbranch, htotal⟩ := applications_bounded φ rs
  exact ⟨hgoal, by decide +kernel, by decide +kernel, hbranch 5 hgoal, htotal⟩

end Session

end SignedTableaux
