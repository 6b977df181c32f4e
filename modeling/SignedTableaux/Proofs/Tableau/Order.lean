import SignedTableaux.Proofs.Tableau.CommonAncestor

/-!
# Goals from left to right

The goals of a tableau stand in an order, which is that of its spots. What takes the place of a goal
takes its place in this order, too. The open goals that are found by going down from an entry are
those that have the entry above them, in the same order.

## Main definitions

* `InPlace` — a list where others stand in the place of one element
* `Spot.isGoal`, `Spot.isOpen` — goals and open goals among the spots

## Main results

* `Tableau.exists_spots_graft` — what comes before a goal and after it stays where it is
* `Tableau.inPlace_goals`, `Tableau.inPlace_openGoals` — goals and open goals after grafting
* `Tableau.exists_spots_subtree?` — the part below a node has the spots that are below it
* `Tableau.openGoalsBelow_eq_filter` — going down and going up find the same open goals
-/

namespace SignedTableaux

/-- Whether `ys` is the list `xs`, where `x` occurs once, with `new` in the place of `x`. -/
def InPlace {α : Type} (x : α) (new xs ys : List α) : Prop :=
  ∃ before after, xs = before ++ x :: after ∧ ys = before ++ new ++ after ∧ x ∉ before ∧ x ∉ after

theorem InPlace.length_eq {α : Type} {x : α} {new xs ys : List α} (h : InPlace x new xs ys) :
    ys.length + 1 = xs.length + new.length := by
  obtain ⟨before, after, rfl, rfl, -, -⟩ := h
  simp only [List.length_append, List.length_cons]
  omega

namespace Spot

/-- Whether a spot is a goal. -/
def isGoal (p : Spot) : Bool :=
  match p.content with
  | .entry _ => false
  | .goal _ => true

/-- Whether a spot is an open goal. -/
def isOpen (p : Spot) : Bool :=
  p.content = .goal none

@[simp] theorem isOpen_iff {p : Spot} : p.isOpen ↔ p.content = .goal none :=
  decide_eq_true_iff

end Spot

namespace Tableau

variable {t sub : Tableau} {g id : NodeId} {above : List Entry} {closing : Option Substitution}

theorem goals_eq (t : Tableau) (above : List Entry) :
    t.goals = ((t.spotsFrom above).filter Spot.isGoal).map Spot.id := by
  induction t generalizing above with
  | goal id closing => rfl
  | step e rest ih => exact ih (e :: above)
  | fork left right ihl ihr => simp [goals, spotsFrom, ihl above, ihr above]

theorem openGoals_eq (t : Tableau) (above : List Entry) :
    t.openGoals = ((t.spotsFrom above).filter Spot.isOpen).map Spot.id := by
  induction t generalizing above with
  | goal id closing => cases closing <;> rfl
  | step e rest ih => exact ih (e :: above)
  | fork left right ihl ihr => simp [openGoals, spotsFrom, ihl above, ihr above]

/-! ### Growth -/

/-- Grafting leaves the spots before the goal and after it as they are. -/
theorem exists_spots_graft (sub : Tableau) (hnodup : t.ids.Nodup)
    (hg : ⟨g, .goal closing, above⟩ ∈ t.spots) :
    ∃ before after, t.spots = before ++ ⟨g, .goal closing, above⟩ :: after ∧
      (t.graft g sub).spots = before ++ sub.spotsFrom above ++ after := by
  suffices hgen : ∀ (t : Tableau) (outer : List Entry), t.ids.Nodup →
      ⟨g, .goal closing, above⟩ ∈ t.spotsFrom outer → ∃ before after,
        t.spotsFrom outer = before ++ ⟨g, .goal closing, above⟩ :: after ∧
          (t.graft g sub).spotsFrom outer = before ++ sub.spotsFrom above ++ after from
    hgen t [] hnodup hg
  clear hg hnodup
  intro t
  induction t with
  | goal id closing' =>
    intro outer _ hg
    obtain ⟨rfl, rfl, rfl⟩ : g = id ∧ closing = closing' ∧ above = outer := by
      simpa [spotsFrom] using hg
    exact ⟨[], [], rfl, by simp [graft]⟩
  | step e rest ih =>
    intro outer hnodup hg
    have hg : ⟨g, .goal closing, above⟩ ∈ rest.spotsFrom (e :: outer) := by
      simpa [spotsFrom] using hg
    obtain ⟨before, after, hold, hnew⟩ := ih (e :: outer) (List.nodup_cons.mp hnodup).2 hg
    refine ⟨⟨e.id, .entry e, outer⟩ :: before, after, ?_, ?_⟩
    · rw [spotsFrom, hold, List.cons_append]
    · rw [graft, spotsFrom, hnew, List.cons_append, List.cons_append]
  | fork left right ihl ihr =>
    intro outer hnodup hg
    obtain ⟨hl, hr, hdisjoint⟩ := List.nodup_append'.mp hnodup
    rcases List.mem_append.mp hg with hg | hg
    · have hright : g ∉ right.goals := fun h => hdisjoint (id_mem_ids hg) (goals_subset_ids h)
      obtain ⟨before, after, hold, hnew⟩ := ihl outer hl hg
      refine ⟨before, after ++ right.spotsFrom outer, ?_, ?_⟩
      · rw [spotsFrom, hold, List.append_assoc, List.cons_append]
      · rw [graft, graft_of_not_mem hright, spotsFrom, hnew, List.append_assoc _ after]
    · have hleft : g ∉ left.goals := fun h => hdisjoint (goals_subset_ids h) (id_mem_ids hg)
      obtain ⟨before, after, hold, hnew⟩ := ihr outer hr hg
      refine ⟨left.spotsFrom outer ++ before, after, ?_, ?_⟩
      · rw [spotsFrom, hold, List.append_assoc]
      · rw [graft, graft_of_not_mem hleft, spotsFrom, hnew]
        simp only [List.append_assoc]

/-- Among the spots of some kind, those of what is grafted take the place of the goal. -/
theorem inPlace_graft (sub : Tableau) (select : Spot → Bool) (hnodup : t.ids.Nodup)
    (hg : ⟨g, .goal closing, above⟩ ∈ t.spots) (hselect : select ⟨g, .goal closing, above⟩) :
    InPlace g (((sub.spotsFrom above).filter select).map Spot.id)
      ((t.spots.filter select).map Spot.id)
      (((t.graft g sub).spots.filter select).map Spot.id) := by
  obtain ⟨before, after, hold, hnew⟩ := exists_spots_graft sub hnodup hg
  have hids : (t.spots.map Spot.id).Nodup := by
    rwa [spots, map_id_spotsFrom]
  rw [hold, List.map_append, List.map_cons] at hids
  have hmem (l : List Spot) (h : g ∈ (l.filter select).map Spot.id) : g ∈ l.map Spot.id :=
    (List.filter_sublist.map Spot.id).subset h
  obtain ⟨-, hafter, hdisjoint⟩ := List.nodup_append'.mp hids
  refine ⟨(before.filter select).map Spot.id, (after.filter select).map Spot.id, ?_, ?_, ?_, ?_⟩
  · simp [hold, List.filter_cons_of_pos hselect]
  · simp [hnew]
  · exact fun h => hdisjoint (hmem before h) List.mem_cons_self
  · exact fun h => (List.nodup_cons.mp hafter).1 (hmem after h)

theorem inPlace_goals (sub : Tableau) (hnodup : t.ids.Nodup)
    (hg : ⟨g, .goal closing, above⟩ ∈ t.spots) :
    InPlace g sub.goals t.goals (t.graft g sub).goals := by
  rw [goals_eq sub above, goals_eq t [], goals_eq _ []]
  exact inPlace_graft sub Spot.isGoal hnodup hg rfl

theorem inPlace_openGoals (sub : Tableau) (hnodup : t.ids.Nodup)
    (hg : ⟨g, .goal none, above⟩ ∈ t.spots) :
    InPlace g sub.openGoals t.openGoals (t.graft g sub).openGoals := by
  rw [openGoals_eq sub above, openGoals_eq t [], openGoals_eq _ []]
  exact inPlace_graft sub Spot.isOpen hnodup hg rfl

/-! ### Below a node -/

theorem mem_ids_of_subtree? (h : t.subtree? id = some sub) : id ∈ t.ids := by
  by_contra hid
  rw [subtree?_eq_none hid] at h
  cases h

/-- What is below a node has the node above it or starts with it. -/
theorem mem_ids_of_below {p : Spot} {outer : List Entry} (hp : p ∈ t.spotsFrom outer)
    (hbelow : p.below id) (houter : id ∉ outer.map Entry.id) : id ∈ t.ids := by
  rcases hbelow with rfl | hbelow
  · exact id_mem_ids hp
  · induction t generalizing outer with
    | goal id' closing =>
      obtain rfl := List.mem_singleton.mp hp
      exact absurd hbelow houter
    | step e rest ih =>
      rcases List.mem_cons.mp hp with rfl | hp
      · exact absurd hbelow houter
      · by_cases he : e.id = id
        · exact List.mem_cons.mpr (.inl he.symm)
        · have houter' : id ∉ (e :: outer).map Entry.id := by simpa [Ne.symm he] using houter
          exact List.mem_cons_of_mem _ (ih hp houter')
    | fork left right ihl ihr =>
      rcases List.mem_append.mp hp with hp | hp
      · exact List.mem_append_left _ (ihl hp houter)
      · exact List.mem_append_right _ (ihr hp houter)

/-- The part at and below a node has just the spots that are at or below it, in the same order. -/
theorem exists_spots_subtree? (hnodup : t.ids.Nodup) (h : t.subtree? id = some sub) :
    ∃ upper, sub.spotsFrom upper = t.spots.filter (·.below id) := by
  suffices hgen : ∀ (t : Tableau) (outer : List Entry), t.ids.Nodup → t.subtree? id = some sub →
      id ∉ outer.map Entry.id →
        ∃ upper, sub.spotsFrom upper = (t.spotsFrom outer).filter (·.below id) from
    hgen t [] hnodup h List.not_mem_nil
  clear h hnodup
  intro t
  induction t with
  | goal id' closing =>
    intro outer _ hsub _
    rw [subtree?, Option.ite_none_right_eq_some, Option.some.injEq] at hsub
    obtain ⟨rfl, rfl⟩ := hsub
    exact ⟨outer, by simp [spotsFrom, Spot.below]⟩
  | step e rest ih =>
    intro outer hnodup hsub houter
    rw [subtree?] at hsub
    split at hsub
    · next he =>
      obtain rfl := Option.some.inj hsub
      refine ⟨outer, (List.filter_eq_self.mpr fun p hp => ?_).symm⟩
      rw [decide_eq_true_eq]
      rcases List.mem_cons.mp hp with rfl | hp
      · exact .inl he
      · exact .inr (List.mem_map.mpr ⟨e, (suffix_above hp).subset List.mem_cons_self, he⟩)
    · next he =>
      have houter' : id ∉ (e :: outer).map Entry.id := by simpa [Ne.symm he] using houter
      obtain ⟨upper, hupper⟩ := ih (e :: outer) (List.nodup_cons.mp hnodup).2 hsub houter'
      have hnot : ¬ (Spot.mk e.id (.entry e) outer).below id := not_or.mpr ⟨he, houter⟩
      exact ⟨upper, by simp [spotsFrom, hnot, hupper]⟩
  | fork left right ihl ihr =>
    intro outer hnodup hsub houter
    obtain ⟨hl, hr, hdisjoint⟩ := List.nodup_append'.mp hnodup
    have hother {side : Tableau} (hside : id ∉ side.ids) :
        (side.spotsFrom outer).filter (·.below id) = [] := by
      refine List.filter_eq_nil_iff.mpr fun p hp hbelow => hside ?_
      exact mem_ids_of_below hp (of_decide_eq_true hbelow) houter
    rcases Option.or_eq_some_iff.mp hsub with hsub | ⟨hnone, hsub⟩
    · obtain ⟨upper, hupper⟩ := ihl outer hl hsub houter
      refine ⟨upper, ?_⟩
      rw [spotsFrom, List.filter_append, hother (hdisjoint (mem_ids_of_subtree? hsub)),
        List.append_nil, hupper]
    · obtain ⟨upper, hupper⟩ := ihr outer hr hsub houter
      refine ⟨upper, ?_⟩
      rw [spotsFrom, List.filter_append,
        hother fun hmem => hdisjoint hmem (mem_ids_of_subtree? hsub), List.nil_append, hupper]

theorem exists_subtree? (h : id ∈ t.ids) : ∃ sub, t.subtree? id = some sub := by
  induction t with
  | goal id' closing =>
    obtain rfl := List.mem_singleton.mp h
    exact ⟨_, if_pos rfl⟩
  | step e rest ih =>
    rw [subtree?]
    split
    · exact ⟨_, rfl⟩
    · next he => exact ih ((List.mem_cons.mp h).resolve_left (Ne.symm he))
  | fork left right ihl ihr =>
    rw [subtree?, ← Option.isSome_iff_exists, Option.isSome_or, Bool.or_eq_true,
      Option.isSome_iff_exists, Option.isSome_iff_exists]
    exact (List.mem_append.mp h).imp ihl ihr

theorem openGoalsBelow_eq (hnodup : t.ids.Nodup) (id : NodeId) :
    t.openGoalsBelow id = ((t.spots.filter (·.below id)).filter Spot.isOpen).map Spot.id := by
  by_cases hid : id ∈ t.ids
  · obtain ⟨sub, hsub⟩ := exists_subtree? hid
    obtain ⟨upper, hupper⟩ := exists_spots_subtree? hnodup hsub
    rw [openGoalsBelow, hsub, Option.map_some, Option.getD_some, openGoals_eq sub upper, hupper]
  · have hnone : t.spots.filter (·.below id) = [] := by
      refine List.filter_eq_nil_iff.mpr fun p hp hbelow => hid ?_
      exact mem_ids_of_below hp (of_decide_eq_true hbelow) List.not_mem_nil
    rw [openGoalsBelow, subtree?_eq_none hid, hnone]
    rfl

/-- Going down from a node that is no goal finds the open goals that have it above them. -/
theorem openGoalsBelow_eq_filter (hnodup : t.ids.Nodup) (hid : id ∉ t.goals) :
    t.openGoalsBelow id = t.openGoals.filter (t.isAncestor id) := by
  rw [openGoalsBelow_eq hnodup, openGoals_eq t [], List.filter_map, List.filter_filter,
    List.filter_filter]
  refine congrArg (List.map Spot.id) (List.filter_congr fun p hp => ?_)
  rw [Bool.and_comm, Bool.eq_iff_iff, Bool.and_eq_true, Bool.and_eq_true, Spot.isOpen_iff]
  refine and_congr_left fun hopen => ?_
  have hne : p.id ≠ id := fun heq => hid ((mem_goals_iff []).mpr ⟨p, hp, ⟨none, hopen⟩, heq⟩)
  rw [Function.comp_apply, isAncestor, ancestors_of_mem_spots hnodup hp, decide_eq_true_iff,
    decide_eq_true_iff]
  exact or_iff_right hne

end Tableau

end SignedTableaux
