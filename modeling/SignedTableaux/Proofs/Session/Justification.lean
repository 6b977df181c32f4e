import SignedTableaux.Proofs.Session.Representation
import SignedTableaux.Proofs.Tableau.Layout

/-!
# Every entry is justified

Every entry but the root was added by a use of a rule on an entry above it, and stands where that
use has put it. A rule is used on an entry only where no entry of the branch comes from it yet, so
on each branch an entry is used at most once: what comes from it there is what one use has added.

## Main definitions

* `Session.Use` — an accepted rule application in a run
* `Session.Applied` — entries that a rule application of a run has added, and how
* `Session.Justified` — every entry is justified, and used once on each branch

## Main results

* `Session.Growth.not_derived` — where a rule is used, nothing comes from its source yet
* `Session.exists_use` — every entry but the root was added by a use of a rule
* `Session.derivedOnce_after` — what comes from an entry on a branch was added by one use
* `Session.justified_after` — every entry is justified after every run
-/

namespace SignedTableaux

/-- An alpha formula has one or two parts. -/
theorem Signed.others_of_alpha {s first : Signed} {others : List Signed}
    (h : s.decomposition? = some (.alpha first others)) :
    others = [] ∨ ∃ second, others = [second] := by
  obtain ⟨sign, t⟩ := s
  cases t with
  | app k f args => simp [decomposition?] at h
  | var x => simp [decomposition?] at h
  | not t =>
    simp only [decomposition?, Option.some.injEq, Decomposition.alpha.injEq] at h
    exact .inl h.2.symm
  | binary c l r =>
    cases sign <;> cases c <;>
      simp only [decomposition?, Option.some.injEq, Decomposition.alpha.injEq,
        reduceCtorEq] at h <;>
      exact .inr ⟨_, h.2.symm⟩
  | quantified q x body => cases sign <;> cases q <;> simp [decomposition?] at h

/-- The part of the results `es` of an expansion that one branch gets, nearest first. -/
def Expansion.Share (expansion : Expansion) (es share : List Entry) : Prop :=
  match expansion with
  | .linear .. => share = es.reverse
  | .branching .. => ∃ e ∈ es, share = [e]

theorem Expansion.Share.subset {expansion : Expansion} {es share : List Entry}
    (h : expansion.Share es share) : share ⊆ es := by
  cases expansion with
  | linear first others =>
    obtain rfl : share = es.reverse := h
    exact List.reverse_subset.mpr (List.Subset.refl _)
  | branching left right =>
    obtain ⟨e, he, rfl⟩ := h
    exact List.cons_subset.mpr ⟨he, List.nil_subset _⟩

/-- Whether an entry comes from the entry with the given number. -/
def Entry.comesFrom (e : Entry) (source : NodeId) : Bool :=
  e.origin.any (·.source = source)

/-- The entries above a goal that come from an entry, nearest first. -/
def Tableau.derived (t : Tableau) (source goal : NodeId) : List Entry :=
  ((t.lineage? goal).getD []).filter (·.comesFrom source)

theorem Tableau.derived_eq {t : Tableau} {p : Spot} {source : NodeId} (hnodup : t.ids.Nodup)
    (hp : p ∈ t.spots) : t.derived source p.id = p.above.filter (·.comesFrom source) := by
  rw [derived, lineage?_eq, spot?_eq_some hnodup hp]
  rfl

theorem Tableau.isExpandedOn_eq {t : Tableau} {p : Spot} (hnodup : t.ids.Nodup) (hp : p ∈ t.spots)
    (source : NodeId) :
    t.isExpandedOn source p.id = (p.above.takeWhile (·.id ≠ source)).any (·.comesFrom source) := by
  rw [isExpandedOn, lineage?_eq, spot?_eq_some hnodup hp]
  rfl

namespace Session

variable {s : Session}

/-! ### One use of a rule -/

namespace Growth

variable (g : Growth s)

/-- The origin of the entries that a rule application adds. -/
def origin : Origin :=
  ⟨g.parts.rule, g.source.id⟩

/-- What a rule application puts in the place of its goal. -/
inductive Shape : Prop
  | single (fragment : Fragment) (hexpansion : g.expansion = .linear fragment [])
    (hsubtree : g.subtree = .step (Tableau.entryOf g.goal g.origin fragment)
      (.goal s.tableau.size none))
  | stacked (first second : Fragment) (hrule : g.parts.rule = .alpha)
    (hexpansion : g.expansion = .linear first [second]) (hintroduced : first.introduced = none)
    (hsubtree : g.subtree = .step (Tableau.entryOf g.goal g.origin first)
      (.step (Tableau.entryOf s.tableau.size g.origin second) (.goal (s.tableau.size + 1) none)))
  | forked (left right : Fragment) (hrule : g.parts.rule = .beta)
    (hexpansion : g.expansion = .branching left right)
    (hsubtree : g.subtree = .fork
      (.step (Tableau.entryOf g.goal g.origin left) (.goal (s.tableau.size + 1) none))
      (.step (Tableau.entryOf s.tableau.size g.origin right) (.goal (s.tableau.size + 2) none)))

theorem expansion_of_alpha {first : Signed} {others : List Signed}
    (h : g.parts = .alpha first others) :
    g.expansion = .linear ⟨first, none⟩ (others.map (⟨·, none⟩)) := by
  have hexpand := g.expand_eq
  rw [h] at hexpand
  exact (Except.ok.inj (congrArg Prod.fst hexpand)).symm

theorem expansion_of_beta {left right : Signed} (h : g.parts = .beta left right) :
    g.expansion = .branching ⟨left, none⟩ ⟨right, none⟩ := by
  have hexpand := g.expand_eq
  rw [h] at hexpand
  exact (Except.ok.inj (congrArg Prod.fst hexpand)).symm

theorem shape : g.Shape := by
  have hexpand := g.expand_eq
  have hparts := g.parts_eq
  have hsubtree : g.subtree = .ofExpansion g.goal s.tableau.size g.origin g.expansion := rfl
  cases hd : g.parts with
  | alpha first others =>
    have hexpansion := g.expansion_of_alpha hd
    have hrule : g.parts.rule = .alpha := by rw [hd]; rfl
    rw [hd] at hparts
    rw [hexpansion] at hsubtree
    rcases Signed.others_of_alpha hparts with rfl | ⟨second, rfl⟩
    · exact .single _ hexpansion hsubtree
    · exact .stacked _ _ hrule hexpansion rfl hsubtree
  | beta left right =>
    have hexpansion := g.expansion_of_beta hd
    have hrule : g.parts.rule = .beta := by rw [hd]; rfl
    rw [hexpansion] at hsubtree
    exact .forked _ _ hrule hexpansion hsubtree
  | gamma sign x body =>
    rw [hd] at hexpand
    obtain ⟨hexpansion, -⟩ := Decomposition.of_expand_gamma hexpand
    rw [hexpansion] at hsubtree
    exact .single _ hexpansion hsubtree
  | delta sign x body =>
    rw [hd] at hexpand
    obtain ⟨hexpansion, -⟩ := Decomposition.of_expand_delta hexpand
    rw [hexpansion] at hsubtree
    exact .single _ hexpansion hsubtree

/-- The new entries are laid out as the rule says. -/
theorem laidOut (hformed : s.tableau.WellFormed) :
    g.session.tableau.LaidOut g.origin g.expansion g.subtree.entries := by
  rcases g.shape with ⟨fragment, hexpansion, hsubtree⟩ |
    ⟨first, second, hrule, hexpansion, -, hsubtree⟩ | ⟨left, right, hrule, hexpansion, hsubtree⟩
  · rw [hexpansion, hsubtree]
    exact .single rfl
  · have hchild : g.session.tableau.HasChildren g.goal [s.tableau.size] := by
      refine Tableau.hasChildren_graft_of_goal g.mem_goals (Tableau.hasChildren_iff.mpr ?_)
      rw [hsubtree]
      exact List.mem_cons_self
    rw [hexpansion, hsubtree]
    exact .stacked hrule rfl rfl hchild
  · obtain ⟨e, upper, habove⟩ := List.exists_cons_of_ne_nil (List.ne_nil_of_mem g.source_mem)
    have hchildren : g.session.tableau.HasChildren e.id [g.goal, s.tableau.size] := by
      have hgoal := g.goal_mem
      rw [habove] at hgoal
      have hparent := Tableau.hasChildren_graft_parent g.subtree hformed.shaped hgoal
      rw [hsubtree] at hparent
      rw [session, hsubtree]
      exact hparent
    rw [hexpansion, hsubtree]
    exact .forked hrule rfl rfl hchildren

/-- Every new entry sees the variables that the goal saw. -/
theorem scope_eq {e : Entry} {above : List Entry}
    (hp : ⟨e.id, .entry e, above⟩ ∈ g.subtree.spotsFrom g.above) :
    above.filterMap Entry.introduced = g.above.filterMap Entry.introduced := by
  rcases g.shape with ⟨fragment, -, hsubtree⟩ | ⟨first, second, -, -, hintroduced, hsubtree⟩ |
    ⟨left, right, -, -, hsubtree⟩ <;> rw [hsubtree] at hp
  · obtain ⟨-, -, rfl⟩ : _ ∧ _ ∧ above = g.above := by simpa [Tableau.spotsFrom] using hp
    rfl
  · obtain ⟨-, -, rfl⟩ | ⟨-, -, rfl⟩ : _ ∧ _ ∧ above = g.above ∨ _ ∧ _ ∧ above = _ :: g.above := by
      simpa [Tableau.spotsFrom] using hp
    · rfl
    · simp [Tableau.entryOf, hintroduced]
  · obtain ⟨-, -, rfl⟩ | ⟨-, -, rfl⟩ : _ ∧ _ ∧ above = g.above ∨ _ ∧ _ ∧ above = g.above := by
      simpa [Tableau.spotsFrom] using hp
    · rfl
    · rfl

/-- A new goal has above it the share of its branch. -/
theorem exists_share {p : Spot} {closing : Option Substitution}
    (hp : p ∈ g.subtree.spotsFrom g.above) (hgoal : p.content = .goal closing) :
    ∃ share, p.above = share ++ g.above ∧ g.expansion.Share g.subtree.entries share := by
  obtain ⟨id, content, above⟩ := p
  obtain rfl : content = .goal closing := hgoal
  rcases g.shape with ⟨fragment, hexpansion, hsubtree⟩ |
    ⟨first, second, -, hexpansion, -, hsubtree⟩ | ⟨left, right, -, hexpansion, hsubtree⟩ <;>
    rw [hsubtree] at hp ⊢ <;> rw [hexpansion]
  · obtain ⟨-, -, rfl⟩ : _ ∧ _ ∧ above = _ :: g.above := by simpa [Tableau.spotsFrom] using hp
    exact ⟨[_], rfl, rfl⟩
  · obtain ⟨-, -, rfl⟩ : _ ∧ _ ∧ above = _ :: _ :: g.above := by simpa [Tableau.spotsFrom] using hp
    exact ⟨[_, _], rfl, rfl⟩
  · obtain ⟨-, -, rfl⟩ | ⟨-, -, rfl⟩ :
        _ ∧ _ ∧ above = _ :: g.above ∨ _ ∧ _ ∧ above = _ :: g.above := by
      simpa [Tableau.spotsFrom] using hp
    · exact ⟨[_], rfl, _, List.mem_cons_self, rfl⟩
    · exact ⟨[_], rfl, _, List.mem_cons_of_mem _ List.mem_cons_self, rfl⟩

theorem origin_of_mem {e : Entry} (he : e ∈ g.subtree.entries) : e.origin = some g.origin := by
  obtain ⟨f, -, he⟩ := Tableau.exists_fragment_of_mem_entries he
  rw [he]
  rfl

end Growth

/-! ### Sources -/

/-- Whether the source of every entry is above it. -/
def Sourced (s : Session) : Prop :=
  ∀ e above origin, ⟨e.id, .entry e, above⟩ ∈ s.tableau.spots → e.origin = some origin →
    ∃ source ∈ above, source.id = origin.source

theorem sourced_after (φ : Term) (rs : List Request) : ((ofFormula φ).after rs).Sourced := by
  refine after_induction (P := Sourced) ?start ?grown ?closed rs
  case start =>
    intro e above origin hp horigin
    obtain ⟨-, rfl, rfl⟩ : _ ∧ e = _ ∧ above = [] := by
      simpa [ofFormula, Tableau.start, Tableau.spots, Tableau.spotsFrom] using hp
    cases horigin
  case grown =>
    intro s g hnumbered h e above origin hp horigin
    rcases (g.mem_spots_iff hnumbered.nodup).mp hp with ⟨hold, -⟩ | hnew
    · exact h e above origin hold horigin
    · have he := g.origin_of_mem ((Tableau.mem_entries_iff g.above).mpr ⟨above, hnew⟩)
      obtain rfl := Option.some.inj (he.symm.trans horigin)
      exact ⟨g.source, (Tableau.suffix_above hnew).subset g.source_mem, rfl⟩
  case closed =>
    intro s c _ h e above origin hp horigin
    exact h e above origin (Tableau.mem_spots_closeBelow_iff.mp hp) horigin

/-- Where a rule is used, no entry of the branch comes from its source yet. The walk that looks for
one stops at the source; above it there can be none, as what comes from an entry is below it. -/
theorem Growth.not_derived (g : Growth s) (hnumbered : s.tableau.WellNumbered) (h : s.Sourced) :
    ∀ e ∈ g.above, e.comesFrom g.source.id = false := by
  intro e he
  by_contra hcomes
  obtain ⟨origin, horigin, hsource⟩ : ∃ origin, e.origin = some origin ∧
      origin.source = g.source.id := by
    simpa [Entry.comesFrom, Option.any_eq_true] using hcomes
  obtain ⟨lower, upper, habove⟩ := List.append_of_mem he
  obtain ⟨source, hmem, hid⟩ :=
    h e upper origin (Tableau.mem_spots_of_above g.goal_mem habove) horigin
  -- so far the walk has only seen entries below the source
  have hbelow : ∀ l ∈ lower ++ [e], l.id ≠ g.source.id := by
    intro l hl
    obtain ⟨l₁, l₂, hsplit⟩ := List.append_of_mem hl
    have habove' : g.above = l₁ ++ l :: (l₂ ++ upper) := by
      rw [habove, List.append_cons, hsplit, List.append_assoc, List.cons_append]
    have hlt := hnumbered.ordered _ (Tableau.mem_spots_of_above g.goal_mem habove') source
      (List.mem_append_right _ hmem)
    rw [← hsource, ← hid]
    exact (Nat.ne_of_lt hlt).symm
  refine g.not_expanded ?_
  rw [Tableau.isExpandedOn_eq hnumbered.nodup g.goal_mem]
  rw [habove, List.append_cons, List.takeWhile_append_of_pos (by simpa using hbelow),
    List.any_append]
  simp [Entry.comesFrom, horigin, hsource]

/-! ### Uses of rules in a run -/

/-- An entry stays where it is. -/
theorem mem_spots_after {φ : Term} {pre rs : List Request} {e : Entry} {above : List Entry}
    (hpre : pre <+: rs) (h : ⟨e.id, .entry e, above⟩ ∈ ((ofFormula φ).after pre).tableau.spots) :
    ⟨e.id, .entry e, above⟩ ∈ ((ofFormula φ).after rs).tableau.spots :=
  after_mono (P := fun s => ⟨e.id, .entry e, above⟩ ∈ s.tableau.spots)
    (fun g _ h => g.mem_spots_of_mem h) (fun _ _ h => Tableau.mem_spots_closeBelow_iff.mpr h) hpre h

/-- An accepted rule application in a run. -/
structure Use (φ : Term) (rs : List Request) where
  before : List Request
  request : Request
  mem_run : before ++ [request] <+: rs
  growth : Growth ((ofFormula φ).after before)
  after_eq : (ofFormula φ).after (before ++ [request]) = growth.session

namespace Use

variable {φ : Term} {rs : List Request}

/-- The entries that the rule application adds. -/
def results (u : Use φ rs) : List Entry :=
  u.growth.subtree.entries

/-- A use stays part of a longer run. -/
def extend (u : Use φ rs) (r : Request) : Use φ (rs ++ [r]) :=
  ⟨u.before, u.request, u.mem_run.trans (List.prefix_append _ _), u.growth, u.after_eq⟩

/-- The last request of a run. -/
def last {r : Request} {reply : Except ProofError Reply} (g : Growth ((ofFormula φ).after rs))
    (h : ((ofFormula φ).after rs).perform r = (reply, g.session)) : Use φ (rs ++ [r]) :=
  ⟨rs, r, List.prefix_rfl, g, by rw [after_concat, h]⟩

/-- New entries stay where they were put. -/
theorem mem_spots (u : Use φ rs) {e : Entry} {above : List Entry}
    (h : ⟨e.id, .entry e, above⟩ ∈ u.growth.subtree.spotsFrom u.growth.above) :
    ⟨e.id, .entry e, above⟩ ∈ ((ofFormula φ).after rs).tableau.spots := by
  refine mem_spots_after u.mem_run ?_
  rw [u.after_eq, u.growth.mem_spots_iff (wellNumbered_after φ u.before).nodup]
  exact .inr h

/-- The layout of new entries stays. -/
theorem laidOut (u : Use φ rs) : ((ofFormula φ).after rs).tableau.LaidOut u.growth.origin
    u.growth.expansion u.results := by
  have hstart : (∀ e ∈ u.results, e ∈ u.growth.session.tableau.entries) ∧
      u.growth.session.tableau.LaidOut u.growth.origin u.growth.expansion u.results :=
    ⟨fun e he => (u.growth.mem_entries_iff (wellNumbered_after φ u.before).nodup).mpr (.inr he),
      u.growth.laidOut (wellFormed_after φ u.before)⟩
  rw [← u.after_eq] at hstart
  refine (after_mono (P := fun s => (∀ e ∈ u.results, e ∈ s.tableau.entries) ∧
    s.tableau.LaidOut u.growth.origin u.growth.expansion u.results) ?grown ?closed
    u.mem_run hstart).2
  case grown =>
    intro s g hnumbered ⟨hentries, hlaid⟩
    exact ⟨fun e he => (g.mem_entries_iff hnumbered.nodup).mpr (.inl (hentries e he)),
      hlaid.graft hnumbered.nodup g.mem_goals hentries⟩
  case closed =>
    intro s c _ ⟨hentries, hlaid⟩
    refine ⟨fun e he => ?_, hlaid.closeBelow⟩
    rw [Closing.session, Tableau.entries_closeBelow]
    exact hentries e he

end Use

/-- The entry that a session for `φ` starts with. -/
def startEntry (φ : Term) : Entry :=
  ⟨0, ⟨.denied, φ⟩, none, none⟩

/-- Every entry but the root was added by a use of a rule. -/
theorem exists_use (φ : Term) (rs : List Request) :
    ∀ e ∈ ((ofFormula φ).after rs).tableau.entries, e = startEntry φ ∨
      ∃ u : Use φ rs, e ∈ u.results := by
  induction rs using List.reverseRecOn with
  | nil => exact fun e he => .inl (List.mem_singleton.mp he)
  | append_singleton rs r ih =>
    have hold : ∀ e ∈ ((ofFormula φ).after rs).tableau.entries, e = startEntry φ ∨
        ∃ u : Use φ (rs ++ [r]), e ∈ u.results := by
      intro e he
      exact (ih e he).imp_right fun ⟨u, hu⟩ => ⟨u.extend r, hu⟩
    intro e he
    rw [after_concat] at he
    rcases effect_after φ rs r with ⟨_, h⟩ | ⟨g, -, h⟩ | ⟨c, -, h⟩ <;> rw [h] at he
    · exact hold e he
    · rcases (g.mem_entries_iff (wellNumbered_after φ rs).nodup).mp he with he | he
      · exact hold e he
      · exact .inr ⟨.last g h, he⟩
    · rw [Closing.session, Tableau.entries_closeBelow] at he
      exact hold e he

/-! ### Used once on each branch -/

/-- Whether what comes from an entry, among the entries above a goal, was added by one use. -/
def DerivedOnce (φ : Term) (rs : List Request) (above : List Entry) : Prop :=
  ∀ source, above.filter (·.comesFrom source) = [] ∨ ∃ u : Use φ rs, u.growth.source.id = source ∧
    u.growth.expansion.Share u.results (above.filter (·.comesFrom source))

theorem DerivedOnce.extend {φ : Term} {rs : List Request} {above : List Entry}
    (h : DerivedOnce φ rs above) (r : Request) : DerivedOnce φ (rs ++ [r]) above := by
  intro source
  exact (h source).imp_right fun ⟨u, hu⟩ => ⟨u.extend r, hu⟩

/-- A rule application is the first use of its source on the branch, and uses no other entry. -/
theorem DerivedOnce.grown {φ : Term} {rs : List Request} {r : Request}
    {reply : Except ProofError Reply} (g : Growth ((ofFormula φ).after rs))
    (hperform : ((ofFormula φ).after rs).perform r = (reply, g.session)) {share : List Entry}
    (h : DerivedOnce φ rs g.above) (hshare : g.expansion.Share g.subtree.entries share) :
    DerivedOnce φ (rs ++ [r]) (share ++ g.above) := by
  have hnone : g.above.filter (·.comesFrom g.source.id) = [] := by
    refine List.filter_eq_nil_iff.mpr fun e he => ?_
    simp [g.not_derived (wellNumbered_after φ rs) (sourced_after φ rs) e he]
  have hcomes : ∀ e ∈ share, ∀ source, e.comesFrom source = decide (g.source.id = source) := by
    intro e he source
    rw [Entry.comesFrom, g.origin_of_mem (hshare.subset he)]
    rfl
  intro source
  rw [List.filter_append]
  by_cases hsource : g.source.id = source
  · have hall : share.filter (·.comesFrom source) = share :=
      List.filter_eq_self.mpr fun e he => by simp [hcomes e he, hsource]
    rw [hall, ← hsource, hnone, List.append_nil]
    exact .inr ⟨.last g hperform, rfl, hshare⟩
  · have hothers : share.filter (·.comesFrom source) = [] :=
      List.filter_eq_nil_iff.mpr fun e he => by simp [hcomes e he, hsource]
    rw [hothers, List.nil_append]
    exact h.extend r source

/-- On each branch, what comes from an entry was added by one use. -/
theorem derivedOnce_after (φ : Term) (rs : List Request) :
    ∀ p ∈ ((ofFormula φ).after rs).tableau.spots, ∀ closing, p.content = .goal closing →
      DerivedOnce φ rs p.above := by
  induction rs using List.reverseRecOn with
  | nil =>
    intro p hp closing hgoal source
    have hp : p = ⟨0, .entry (startEntry φ), []⟩ ∨ p = ⟨1, .goal none, [startEntry φ]⟩ := by
      simpa [ofFormula, Tableau.start, Tableau.spots, Tableau.spotsFrom, startEntry] using hp
    rcases hp with rfl | rfl
    · cases hgoal
    · exact .inl rfl
  | append_singleton rs r ih =>
    intro p hp closing hgoal
    rw [after_concat] at hp
    rcases effect_after φ rs r with ⟨_, h⟩ | ⟨g, -, h⟩ | ⟨c, -, h⟩ <;> rw [h] at hp
    · exact (ih p hp closing hgoal).extend r
    · rcases (g.mem_spots_iff (wellNumbered_after φ rs).nodup).mp hp with ⟨hold, -⟩ | hnew
      · exact (ih p hold closing hgoal).extend r
      · obtain ⟨share, habove, hshare⟩ := g.exists_share hnew hgoal
        rw [habove]
        exact (ih _ g.goal_mem none rfl).grown g h hshare
    · obtain ⟨q, hq, closing', hcontent, habove⟩ := Tableau.exists_goal_of_mem_closeBelow hp hgoal
      rw [← habove]
      exact (ih q hq closing' hcontent).extend r

/-! ### Justification -/

/-- Whether the entries `es` are what a rule application of a run has added: the rule applies to its
source, which is above them, and they are its expansion, with the names that were left then and the
variables introduced above. -/
structure Applied (φ : Term) (rs : List Request) (origin : Origin) (expansion : Expansion)
    (es : List Entry) : Prop where
  laidOut : ((ofFormula φ).after rs).tableau.LaidOut origin expansion es
  expand_eq : ∃ source, (∃ node ∈ ((ofFormula φ).after rs).tableau.nodes,
      node.id = origin.source ∧ node.asEntry = some source) ∧
    source.signed.rule? = some origin.rule ∧
    ∃ before r, before ++ [r] <+: rs ∧ ∀ e ∈ es,
      ∃ node ∈ ((ofFormula φ).after rs).tableau.nodes, node.asEntry = some e ∧
        ((ofFormula φ).after rs).tableau.isAncestor origin.source node.id ∧
        ∃ parent, node.parent = some parent ∧
          origin.rule.expand source.signed (((ofFormula φ).after rs).tableau.freeVars parent)
              ((ofFormula φ).after before).names =
            (.ok expansion, ((ofFormula φ).after (before ++ [r])).names)

/-- Whether every entry of a session is justified, and used at most once on each branch. -/
structure Justified (φ : Term) (rs : List Request) : Prop where
  /-- Only the root comes from nowhere. -/
  origin_eq_none_iff : ∀ node ∈ ((ofFormula φ).after rs).tableau.nodes, ∀ e,
    node.asEntry = some e → (e.origin = none ↔ node.id = ((ofFormula φ).after rs).tableau.root)
  /-- Every other entry was added by a rule application. -/
  applied : ∀ node ∈ ((ofFormula φ).after rs).tableau.nodes, ∀ e origin,
    node.asEntry = some e → e.origin = some origin →
      ∃ expansion es, e ∈ es ∧ Applied φ rs origin expansion es
  /-- On each branch, what comes from an entry is the share of one rule application. -/
  once : ∀ goal ∈ ((ofFormula φ).after rs).tableau.goals, ∀ source,
    ((ofFormula φ).after rs).tableau.derived source goal = [] ∨
      ∃ rule expansion es, Applied φ rs ⟨rule, source⟩ expansion es ∧
        expansion.Share es (((ofFormula φ).after rs).tableau.derived source goal)

theorem Use.applied {φ : Term} {rs : List Request} (u : Use φ rs) :
    Applied φ rs u.growth.origin u.growth.expansion u.results := by
  have hnodup := (wellNumbered_after φ rs).nodup
  refine ⟨u.laidOut, u.growth.source, ?source, ?rule, u.before, u.request, u.mem_run, ?results⟩
  case source =>
    obtain ⟨lower, upper, habove⟩ := List.append_of_mem u.growth.source_mem
    have hspot := mem_spots_after ((List.prefix_append _ _).trans u.mem_run)
      (Tableau.mem_spots_of_above u.growth.goal_mem habove)
    obtain ⟨node, hnode, hid, hcontent, -⟩ := Tableau.exists_node_of_mem_spots hspot
    exact ⟨node, hnode, hid, by rw [Node.asEntry, hcontent]⟩
  case rule =>
    rw [Signed.rule?, u.growth.parts_eq]
    rfl
  case results =>
    intro e he
    obtain ⟨above, hnew⟩ := (Tableau.mem_entries_iff u.growth.above).mp he
    have hspot := u.mem_spots hnew
    have hsource := (Tableau.suffix_above hnew).subset u.growth.source_mem
    obtain ⟨node, hnode, hid, hcontent, hparent⟩ := Tableau.exists_node_of_mem_spots hspot
    obtain ⟨parent, upper, rfl⟩ := List.exists_cons_of_ne_nil (List.ne_nil_of_mem hsource)
    have hscope : ((ofFormula φ).after rs).tableau.freeVars parent.id =
        u.growth.above.filterMap Entry.introduced := by
      have hbranch := Tableau.branch?_of_mem_spots hnodup
        (Tableau.mem_spots_of_above hspot (List.nil_append _).symm)
      rw [← u.growth.scope_eq hnew, Tableau.freeVars, hbranch]
      rfl
    refine ⟨node, hnode, by rw [Node.asEntry, hcontent], ?_, parent.id, hparent, ?_⟩
    · rw [hid]
      exact Tableau.isAncestor_of_mem_above hnodup hspot hsource
    · rw [hscope, u.after_eq, Rule.expand, u.growth.parts_eq]
      exact (if_pos rfl).trans u.growth.expand_eq

/-- The root stays. -/
theorem exists_tableau_eq_step (φ : Term) (rs : List Request) :
    ∃ rest, ((ofFormula φ).after rs).tableau = .step (startEntry φ) rest := by
  refine after_induction (P := fun s => ∃ rest, s.tableau = .step (startEntry φ) rest) ?start ?grown
    ?closed rs
  case start => exact ⟨.goal 1 none, rfl⟩
  case grown =>
    rintro s g _ ⟨rest, h⟩
    exact ⟨rest.graft g.goal g.subtree, by rw [Growth.session, h]; rfl⟩
  case closed =>
    rintro s c _ ⟨rest, h⟩
    rw [Closing.session, h, Tableau.closeBelow]
    split <;> exact ⟨_, rfl⟩

/-- Only the root comes from nowhere. -/
theorem origin_eq_none_iff (φ : Term) (rs : List Request) {e : Entry}
    (he : e ∈ ((ofFormula φ).after rs).tableau.entries) :
    e.origin = none ↔ e.id = ((ofFormula φ).after rs).tableau.root := by
  obtain ⟨rest, hstep⟩ := exists_tableau_eq_step φ rs
  have hstart : startEntry φ ∈ ((ofFormula φ).after rs).tableau.entries := by
    rw [hstep]
    exact List.mem_cons_self
  have hroot : ((ofFormula φ).after rs).tableau.root = (startEntry φ).id := by
    rw [hstep]
    rfl
  rw [hroot]
  constructor
  · intro hnone
    rcases exists_use φ rs e he with rfl | ⟨u, hu⟩
    · rfl
    · rw [u.growth.origin_of_mem hu] at hnone
      cases hnone
  · intro hid
    rw [Tableau.entry_eq_of_id_eq (wellNumbered_after φ rs).nodup he hstart hid]
    rfl

/-- Whatever a session was asked to do, every entry is justified. -/
theorem justified_after (φ : Term) (rs : List Request) : Justified φ rs := by
  refine ⟨?root, ?applied, ?once⟩
  case root =>
    intro node hnode e he
    obtain ⟨hid, above, hspot⟩ := Tableau.exists_above_of_mem_nodes hnode he
    rw [hid]
    exact origin_eq_none_iff φ rs ((Tableau.mem_entries_iff []).mpr ⟨above, hspot⟩)
  case applied =>
    intro node hnode e origin he horigin
    obtain ⟨-, above, hspot⟩ := Tableau.exists_above_of_mem_nodes hnode he
    rcases exists_use φ rs e ((Tableau.mem_entries_iff []).mpr ⟨above, hspot⟩) with rfl | ⟨u, hu⟩
    · cases horigin
    · obtain rfl := Option.some.inj ((u.growth.origin_of_mem hu).symm.trans horigin)
      exact ⟨_, _, hu, u.applied⟩
  case once =>
    intro goal hgoal source
    obtain ⟨p, hp, ⟨closing, hcontent⟩, rfl⟩ := (Tableau.mem_goals_iff []).mp hgoal
    rw [Tableau.derived_eq (wellNumbered_after φ rs).nodup hp]
    refine (derivedOnce_after φ rs p hp closing hcontent source).imp_right ?_
    rintro ⟨u, rfl, hshare⟩
    exact ⟨_, _, _, u.applied, hshare⟩

/-- The formula `P & Q -> Q & P`. -/
def swappedAtoms : Term :=
  .binary .implies (.binary .and (.pred "P" []) (.pred "Q" []))
    (.binary .and (.pred "Q" []) (.pred "P" []))

/-- Both conjunctions are taken apart, the second one on two branches. -/
def swappedAtomsRun : List Request :=
  [.applyRule .alpha 1 0, .applyRule .alpha 3 1, .applyRule .beta 5 2]

/-- Each branch has both parts of the conjunction that holds, and one part of the other. -/
theorem justified_swappedAtoms :
    (∀ goal ∈ [7, 8],
      (((ofFormula swappedAtoms).after swappedAtomsRun).tableau.derived 1 goal).map Entry.id =
        [4, 3]) ∧
    (((ofFormula swappedAtoms).after swappedAtomsRun).tableau.derived 2 7).map Entry.id = [5] ∧
    (((ofFormula swappedAtoms).after swappedAtomsRun).tableau.derived 2 8).map Entry.id = [6] ∧
    Justified swappedAtoms swappedAtomsRun :=
  ⟨by decide +kernel, by decide +kernel, by decide +kernel, justified_after _ _⟩

end Session

end SignedTableaux
