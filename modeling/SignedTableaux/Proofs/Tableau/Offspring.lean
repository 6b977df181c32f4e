import SignedTableaux.Proofs.Tableau.Links

/-!
# Children after a change

An expansion leaves the parents of all nodes as they are and adds new nodes. A stack adds each of
them below the one before it; two alternatives add a sibling for the goal. So no node that has an
entry as a child gets another child. Closing goals changes neither parents nor entries.

## Main results

* `Tableau.isChild_expand_of_lt` — old nodes keep their parents
* `Tableau.parent_of_isChild_linear`, `Tableau.isChild_branching_iff` — the parents of new nodes
* `Tableau.isChild_expand_of_mem_entryIds` — a node that has an entry as a child gets no other child
* `Tableau.of_two_children` — how a node comes to have two children
* `Tableau.mem_entryIds_branching` — the entries after a branching expansion
-/

namespace SignedTableaux.Tableau

variable {t : Tableau} {g next c k : NodeId} {above : List Entry} {closing : Option Substitution}
  {origin : Origin} {expansion : Expansion} {p : Spot}

/-! ### The spots that an expansion adds -/

theorem parent_of_mem_stack {fragments : List Fragment} {e : Entry}
    (h : p ∈ (stack origin next fragments).spotsFrom (e :: above)) :
    next ≤ p.id ∧
      p.above.head?.map Entry.id = some (if p.id = next then e.id else p.id - 1) := by
  induction fragments generalizing next e above with
  | nil =>
    obtain rfl := List.mem_singleton.mp h
    simp
  | cons fragment others ih =>
    rcases List.mem_cons.mp h with rfl | h
    · simp [entryOf]
    · obtain ⟨hle, hparent⟩ := ih h
      have hne : p.id ≠ next := Nat.ne_of_gt hle
      refine ⟨Nat.le_of_succ_le hle, ?_⟩
      rw [hparent, if_neg hne]
      split
      · next heq => simp [entryOf, heq]
      · rfl

/-- The first fragment stands in the place of the goal. -/
theorem exists_entry_mem_ofExpansion (g next : NodeId) (origin : Origin) (expansion : Expansion)
    (above : List Entry) :
    ∃ e : Entry, e.id = g ∧
      ⟨e.id, .entry e, above⟩ ∈ (ofExpansion g next origin expansion).spotsFrom above := by
  cases expansion with
  | linear first others => exact ⟨entryOf g origin first, rfl, List.mem_cons_self⟩
  | branching left right => exact ⟨entryOf g origin left, rfl, List.mem_cons_self⟩

/-- All other nodes of an expansion have new numbers. -/
theorem of_mem_ofExpansion (h : p ∈ (ofExpansion g next origin expansion).spotsFrom above) :
    p.id = g ∧ p.above = above ∨ next ≤ p.id := by
  cases expansion with
  | linear first others =>
    rcases List.mem_cons.mp h with rfl | h
    · exact .inl ⟨rfl, rfl⟩
    · exact .inr (parent_of_mem_stack h).1
  | branching left right =>
    rcases mem_spotsFrom_branching.mp h with rfl | rfl | rfl | rfl
    · exact .inl ⟨rfl, rfl⟩
    · exact .inr (Nat.le_add_right _ _)
    · exact .inr (Nat.le_refl _)
    · exact .inr (Nat.le_add_right _ _)

/-! ### Old nodes -/

theorem isChild_goal_iff (hnodup : t.ids.Nodup) (hg : ⟨g, .goal closing, above⟩ ∈ t.spots) :
    t.IsChild g k ↔ above.head?.map Entry.id = some k := by
  rw [isChild_iff]
  constructor
  · rintro ⟨p, hp, hid, hk⟩
    rwa [spot_eq_of_id_eq hnodup hp hg hid] at hk
  · exact fun hk => ⟨_, hg, rfl, hk⟩

/-- Old nodes keep their parents: the entry in the place of the goal has the parent that the goal
had. -/
theorem isChild_expand_of_lt (h : t.WellFormed) (hg : ⟨g, .goal closing, above⟩ ∈ t.spots)
    (hc : c < t.size) : (t.expand g origin expansion).1.IsChild c k ↔ t.IsChild c k := by
  have hnodup := h.numbered.nodup
  rw [isChild_iff, isChild_iff]
  constructor
  · rintro ⟨p, hp, rfl, hk⟩
    rcases (mem_spots_graft_of_nodup hnodup hg).mp hp with ⟨hp, -⟩ | hp
    · exact ⟨p, hp, rfl, hk⟩
    · rcases of_mem_ofExpansion hp with ⟨hid, habove⟩ | hle
      · exact ⟨_, hg, hid.symm, habove ▸ hk⟩
      · exact absurd hle (Nat.not_le.mpr hc)
  · rintro ⟨p, hp, rfl, hk⟩
    by_cases hid : p.id = g
    · obtain ⟨e, he, hmem⟩ := exists_entry_mem_ofExpansion g t.size origin expansion above
      obtain rfl := spot_eq_of_id_eq hnodup hp hg hid
      exact ⟨_, (mem_spots_graft_of_nodup hnodup hg).mpr (.inr hmem), he, hk⟩
    · exact ⟨p, (mem_spots_graft_of_nodup hnodup hg).mpr (.inl ⟨hp, hid⟩), rfl, hk⟩

/-- A new node comes from what the expansion put in the place of the goal. -/
theorem exists_mem_ofExpansion_of_isChild (h : t.WellFormed)
    (hg : ⟨g, .goal closing, above⟩ ∈ t.spots) (hc : t.size ≤ c)
    (hchild : (t.expand g origin expansion).1.IsChild c k) :
    ∃ p ∈ (ofExpansion g t.size origin expansion).spotsFrom above,
      p.id = c ∧ p.above.head?.map Entry.id = some k := by
  obtain ⟨p, hp, rfl, hk⟩ := isChild_iff.mp hchild
  rcases (mem_spots_graft_of_nodup h.numbered.nodup hg).mp hp with ⟨hp, -⟩ | hp
  · exact absurd hc (Nat.not_le.mpr (h.numbered.mem_ids_iff.mp (id_mem_ids hp)))
  · exact ⟨p, hp, rfl, hk⟩

/-- In a stack every new node is below the one before it. -/
theorem parent_of_isChild_linear {first : Fragment} {others : List Fragment} (h : t.WellFormed)
    (hg : ⟨g, .goal closing, above⟩ ∈ t.spots) (hc : t.size ≤ c)
    (hchild : (t.expand g origin (.linear first others)).1.IsChild c k) :
    k = if c = t.size then g else c - 1 := by
  have hlt := h.numbered.mem_ids_iff.mp (id_mem_ids hg)
  obtain ⟨p, hp, rfl, hk⟩ := exists_mem_ofExpansion_of_isChild h hg hc hchild
  rcases List.mem_cons.mp hp with rfl | hp
  · exact absurd hc (Nat.not_le.mpr hlt)
  · exact (Option.some.inj ((parent_of_mem_stack hp).2.symm.trans hk)).symm

/-- Two alternatives add a sibling for the entry in the place of the goal, and a goal below each. -/
theorem isChild_branching_iff {left right : Fragment} (h : t.WellFormed)
    (hg : ⟨g, .goal closing, above⟩ ∈ t.spots) (hc : t.size ≤ c) :
    (t.expand g origin (.branching left right)).1.IsChild c k ↔
      c = t.size ∧ t.IsChild g k ∨ c = t.size + 1 ∧ k = g ∨ c = t.size + 2 ∧ k = t.size := by
  have hlt := h.numbered.mem_ids_iff.mp (id_mem_ids hg)
  rw [isChild_goal_iff h.numbered.nodup hg]
  constructor
  · intro hchild
    obtain ⟨p, hp, rfl, hk⟩ := exists_mem_ofExpansion_of_isChild h hg hc hchild
    rcases mem_spotsFrom_branching.mp hp with rfl | rfl | rfl | rfl
    · exact absurd hc (Nat.not_le.mpr hlt)
    · exact .inr (.inl ⟨rfl, (Option.some.inj hk).symm⟩)
    · exact .inl ⟨rfl, hk⟩
    · exact .inr (.inr ⟨rfl, (Option.some.inj hk).symm⟩)
  · have hmem {p : Spot} (hp : p ∈ (ofExpansion g t.size origin (.branching left right)).spotsFrom
        above) : p ∈ (t.expand g origin (.branching left right)).1.spots :=
      mem_spots_graft.mpr (.inr ⟨closing, above, hg, hp⟩)
    rw [isChild_iff]
    rintro (⟨rfl, hk⟩ | ⟨rfl, rfl⟩ | ⟨rfl, rfl⟩)
    · exact ⟨⟨t.size, .entry (entryOf t.size origin right), above⟩,
        hmem (mem_spotsFrom_branching.mpr (by simp)), rfl, hk⟩
    · exact ⟨⟨t.size + 1, .goal none, entryOf k origin left :: above⟩,
        hmem (mem_spotsFrom_branching.mpr (by simp)), rfl, rfl⟩
    · exact ⟨⟨t.size + 2, .goal none, entryOf t.size origin right :: above⟩,
        hmem (mem_spotsFrom_branching.mpr (by simp)), rfl, rfl⟩

/-- A node that is no old entry has one child at most. -/
theorem child_eq_of_not_mem_entryIds {c' : NodeId} (h : t.WellFormed)
    (hg : ⟨g, .goal closing, above⟩ ∈ t.spots) (hk : k ∉ t.entryIds)
    (hchild : (t.expand g origin expansion).1.IsChild c k)
    (hchild' : (t.expand g origin expansion).1.IsChild c' k) : c = c' := by
  have hlt := h.numbered.mem_ids_iff.mp (id_mem_ids hg)
  -- an old child would have an old entry as its parent
  have hnew {d : NodeId} (hd : (t.expand g origin expansion).1.IsChild d k) : t.size ≤ d := by
    refine Nat.not_lt.mp fun hlt => hk ?_
    exact ((isChild_expand_of_lt h hg hlt).mp hd).mem_entryIds
  have hc := hnew hchild
  have hc' := hnew hchild'
  cases expansion with
  | linear first others =>
    have hparent := parent_of_isChild_linear h hg hc hchild
    have hparent' := parent_of_isChild_linear h hg hc' hchild'
    simp only [NodeId] at *
    split at hparent <;> split at hparent' <;> omega
  | branching left right =>
    rw [isChild_branching_iff h hg hc] at hchild
    rw [isChild_branching_iff h hg hc'] at hchild'
    have hnot : ¬ t.IsChild g k := fun hgk => hk hgk.mem_entryIds
    simp only [hnot, and_false, false_or, NodeId] at *
    omega

/-- The only new child of an old entry is the second alternative, beside the former goal. -/
theorem eq_size_of_isChild (h : t.WellFormed) (hg : ⟨g, .goal closing, above⟩ ∈ t.spots)
    (hk : k ∈ t.entryIds) (hc : t.size ≤ c)
    (hchild : (t.expand g origin expansion).1.IsChild c k) :
    (∃ left right, expansion = .branching left right) ∧ c = t.size ∧ t.IsChild g k := by
  have hgoal := mem_goals_of_mem_spots hg
  have hkg : k ≠ g := fun heq =>
    not_mem_goals_of_mem_entryIds h.numbered.nodup hk (heq ▸ hgoal)
  have hlt : k < t.size := lt_size_of_mem_entryIds h hk
  cases expansion with
  | linear first others =>
    have hparent := parent_of_isChild_linear h hg hc hchild
    simp only [NodeId] at *
    split at hparent <;> omega
  | branching left right =>
    refine ⟨⟨left, right, rfl⟩, ?_⟩
    rcases (isChild_branching_iff h hg hc).mp hchild with hbeside | ⟨-, heq⟩ | ⟨-, heq⟩
    · exact hbeside
    · exact absurd heq hkg
    · exact absurd heq (Nat.ne_of_lt hlt)

/-- A node that has an entry as a child gets no other child. -/
theorem isChild_expand_of_mem_entryIds (h : t.WellFormed)
    (hg : ⟨g, .goal closing, above⟩ ∈ t.spots) (hchild : t.IsChild c k) (hc : c ∈ t.entryIds)
    (d : NodeId) : (t.expand g origin expansion).1.IsChild d k ↔ t.IsChild d k := by
  by_cases hd : d < t.size
  · exact isChild_expand_of_lt h hg hd
  · refine ⟨fun hchild' => ?_, fun hchild' => absurd (hchild'.lt_size h) hd⟩
    have hgoal := mem_goals_of_mem_spots hg
    -- only the parent of the former goal gets a new child, and the goal has no sibling
    obtain ⟨-, -, hgk⟩ := eq_size_of_isChild h hg hchild.mem_entryIds (Nat.not_lt.mp hd) hchild'
    have heq := hgk.eq_of_mem_goals h hgoal hchild
    exact absurd (heq ▸ hgoal) (not_mem_goals_of_mem_entryIds h.numbered.nodup hc)

/-- After a branching expansion the parent of the former goal has the two alternatives as its
children. -/
theorem isChild_branching_of_isChild {left right : Fragment} (h : t.WellFormed)
    (hg : ⟨g, .goal closing, above⟩ ∈ t.spots) (hgk : t.IsChild g k) (d : NodeId) :
    (t.expand g origin (.branching left right)).1.IsChild d k ↔ d = g ∨ d = t.size := by
  have hgoal := mem_goals_of_mem_spots hg
  have hlt := hgk.lt_size h
  by_cases hd : d < t.size
  · rw [isChild_expand_of_lt h hg hd]
    constructor
    · exact fun hdk => .inl (hgk.eq_of_mem_goals h hgoal hdk)
    · rintro (rfl | rfl)
      · exact hgk
      · exact absurd hd (Nat.lt_irrefl _)
  · constructor
    · intro hdk
      exact .inr (eq_size_of_isChild h hg hgk.mem_entryIds (Nat.not_lt.mp hd) hdk).2.1
    · rintro (rfl | rfl)
      · exact absurd hlt hd
      · exact (isChild_branching_iff h hg (Nat.not_lt.mp hd)).mpr (.inl ⟨rfl, hgk⟩)

/-- A node that has one of the two alternatives as a child has just the two as its children. -/
theorem isChild_branching_iff_of_new {left right : Fragment} (h : t.WellFormed)
    (hg : ⟨g, .goal closing, above⟩ ∈ t.spots)
    (hchild : (t.expand g origin (.branching left right)).1.IsChild c k)
    (hc : c = g ∨ c = t.size) (d : NodeId) :
    (t.expand g origin (.branching left right)).1.IsChild d k ↔ d = g ∨ d = t.size := by
  refine isChild_branching_of_isChild h hg ?_ d
  rcases hc with rfl | rfl
  · have hlt := h.numbered.mem_ids_iff.mp (id_mem_ids hg)
    exact (isChild_expand_of_lt h hg hlt).mp hchild
  · rcases (isChild_branching_iff h hg (Nat.le_refl _)).mp hchild with
      ⟨-, hgk⟩ | ⟨heq, -⟩ | ⟨heq, -⟩
    · exact hgk
    · exact absurd heq (Nat.ne_of_lt (Nat.lt_succ_self _))
    · exact absurd heq (Nat.ne_of_lt (Nat.lt_add_of_pos_right (by decide)))

/-- Two children of one node were both there before, as entries, or are the two alternatives of a
branching expansion. -/
theorem of_two_children {c' : NodeId} (h : t.WellFormed)
    (hg : ⟨g, .goal closing, above⟩ ∈ t.spots) (hne : c ≠ c')
    (hchild : (t.expand g origin expansion).1.IsChild c k)
    (hchild' : (t.expand g origin expansion).1.IsChild c' k) :
    t.IsChild c k ∧ t.IsChild c' k ∧ c ∈ t.entryIds ∨
      (∃ left right, expansion = .branching left right) ∧ (c = g ∨ c = t.size) := by
  have hgoal := mem_goals_of_mem_spots hg
  have hk : k ∈ t.entryIds := by
    by_contra hk
    exact hne (child_eq_of_not_mem_entryIds h hg hk hchild hchild')
  by_cases hc : c < t.size
  · rw [isChild_expand_of_lt h hg hc] at hchild
    by_cases hc' : c' < t.size
    · rw [isChild_expand_of_lt h hg hc'] at hchild'
      have hentry := hchild.mem_goals_or_mem_entryIds.resolve_left fun hcgoal =>
        hne (hchild.eq_of_mem_goals h hcgoal hchild').symm
      exact .inl ⟨hchild, hchild', hentry⟩
    · obtain ⟨hbranching, -, hgk⟩ := eq_size_of_isChild h hg hk (Nat.not_lt.mp hc') hchild'
      exact .inr ⟨hbranching, .inl (hgk.eq_of_mem_goals h hgoal hchild)⟩
  · obtain ⟨hbranching, hsize, -⟩ := eq_size_of_isChild h hg hk (Nat.not_lt.mp hc) hchild
    exact .inr ⟨hbranching, .inr hsize⟩

/-! ### Entries -/

theorem mem_entryIds_expand (hc : c ∈ t.entryIds) :
    c ∈ (t.expand g origin expansion).1.entryIds := by
  obtain ⟨p, hp, rfl, e, hentry⟩ := mem_entryIds_iff.mp hc
  refine mem_entryIds_iff.mpr ⟨p, mem_spots_graft.mpr (.inl ⟨hp, ?_⟩), rfl, e, hentry⟩
  exact fun _ hgoal => Content.noConfusion (hentry.symm.trans hgoal)

theorem mem_entryIds_branching {left right : Fragment} (hg : ⟨g, .goal closing, above⟩ ∈ t.spots) :
    c ∈ (t.expand g origin (.branching left right)).1.entryIds ↔
      c ∈ t.entryIds ∨ c = g ∨ c = t.size := by
  constructor
  · intro hc
    obtain ⟨p, hp, rfl, e, hentry⟩ := mem_entryIds_iff.mp hc
    rcases mem_spots_graft.mp hp with ⟨hp, -⟩ | ⟨closing', upper, -, hp⟩
    · exact .inl (mem_entryIds_iff.mpr ⟨p, hp, rfl, e, hentry⟩)
    · rcases mem_spotsFrom_branching.mp hp with rfl | rfl | rfl | rfl
      · exact .inr (.inl rfl)
      · exact Content.noConfusion hentry
      · exact .inr (.inr rfl)
      · exact Content.noConfusion hentry
  · have hmem {e : Entry} (hp : ⟨e.id, .entry e, above⟩ ∈
        (ofExpansion g t.size origin (.branching left right)).spotsFrom above) :
        e.id ∈ (t.expand g origin (.branching left right)).1.entryIds :=
      mem_entryIds_iff.mpr ⟨_, mem_spots_graft.mpr (.inr ⟨closing, above, hg, hp⟩), rfl, e, rfl⟩
    rintro (hc | rfl | rfl)
    · exact mem_entryIds_expand hc
    · exact hmem (e := entryOf c origin left) (mem_spotsFrom_branching.mpr (.inl rfl))
    · exact hmem (e := entryOf t.size origin right)
        (mem_spotsFrom_branching.mpr (.inr (.inr (.inl rfl))))

/-! ### Closing -/

theorem isChild_closeBelow {id : NodeId} {σ : Substitution} :
    (t.closeBelow id σ).IsChild c k ↔ t.IsChild c k := by
  simp [isChild_iff, spots_closeBelow]

theorem mem_entryIds_closeBelow {id : NodeId} {σ : Substitution} :
    c ∈ (t.closeBelow id σ).entryIds ↔ c ∈ t.entryIds := by
  simp [mem_entryIds_iff, spots_closeBelow]

end SignedTableaux.Tableau
