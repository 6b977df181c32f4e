import Mathlib.Data.List.Perm.Basic
import SignedTableaux.Proofs.Tableau.Spot

/-!
# Numbering of nodes

The nodes of a tableau are numbered from zero without gaps, and numbers grow downwards. Both are
kept when an expansion takes the place of a goal, and closing goals changes no number.

## Main definitions

* `Expansion.added` — how many new numbers an expansion takes
* `Tableau.WellNumbered` — the numbers are those below the size, and grow downwards

## Main results

* `Tableau.cons_ids_graft_perm` — grafting takes one number away and adds those of what is grafted
* `Tableau.size_expand` — the number of nodes after growth
* `Tableau.WellNumbered.pairwise_above` — numbers go down on the way up
* `Tableau.WellNumbered.expand`, `Tableau.WellNumbered.closeBelow` — what the two changes keep
-/

namespace SignedTableaux

/-- How many new numbers an expansion takes: the first fragment takes over that of its goal. -/
def Expansion.added : Expansion → Nat
  | .linear _ others => others.length + 1
  | .branching _ _ => 3

namespace Tableau

variable {t : Tableau}

theorem graft_of_not_mem {g : NodeId} {sub : Tableau} (h : g ∉ t.goals) : t.graft g sub = t := by
  induction t with
  | goal id closing => simp_all [goals, graft, eq_comm]
  | step e rest ih => simp_all [goals, graft]
  | fork left right ihl ihr => simp_all [goals, graft]

theorem goals_subset_ids {g : NodeId} (h : g ∈ t.goals) : g ∈ t.ids := by
  obtain ⟨p, hp, -, rfl⟩ := (mem_goals_iff []).mp h
  exact id_mem_ids hp

/-- Grafting takes one number away and adds those of what is grafted. -/
theorem cons_ids_graft_perm {g : NodeId} {sub : Tableau} (hnodup : t.ids.Nodup)
    (hg : g ∈ t.goals) : (g :: (t.graft g sub).ids).Perm (t.ids ++ sub.ids) := by
  induction t with
  | goal id closing =>
    obtain rfl := List.mem_singleton.mp hg
    simp [graft, ids]
  | step e rest ih =>
    have hrest := ih (List.nodup_cons.mp hnodup).2 hg
    exact (List.Perm.swap _ _ _).trans (hrest.cons e.id)
  | fork left right ihl ihr =>
    obtain ⟨hl, hr, hdisjoint⟩ := List.nodup_append'.mp hnodup
    -- no number is repeated, so the goal is on one side only
    rcases List.mem_append.mp hg with hgl | hgr
    · have hright : g ∉ right.goals := fun h =>
        hdisjoint (goals_subset_ids hgl) (goals_subset_ids h)
      rw [graft, graft_of_not_mem hright, ids, ids]
      refine ((ihl hl hgl).append_right right.ids).trans ?_
      rw [List.append_assoc, List.append_assoc]
      exact List.perm_append_comm.append_left _
    · have hleft : g ∉ left.goals := fun h =>
        hdisjoint (goals_subset_ids h) (goals_subset_ids hgr)
      rw [graft, graft_of_not_mem hleft, ids, ids, List.append_assoc]
      exact List.perm_middle.symm.trans ((ihr hr hgr).append_left _)

/-! ### What an expansion adds -/

theorem ids_stack (origin : Origin) (next : NodeId) (fragments : List Fragment) :
    (stack origin next fragments).ids = List.range' next (fragments.length + 1) := by
  induction fragments generalizing next with
  | nil => rfl
  | cons fragment others ih =>
    rw [stack, ids, ih, List.length_cons, List.range'_succ]
    rfl

/-- The first fragment takes over the number of the goal; the numbers of all other nodes are the
next ones. -/
theorem ids_ofExpansion_perm (g next : NodeId) (origin : Origin) (expansion : Expansion) :
    ∃ n, (ofExpansion g next origin expansion).ids.Perm (g :: List.range' next n) := by
  cases expansion with
  | linear first others =>
    refine ⟨others.length + 1, ?_⟩
    rw [ofExpansion, ids, ids_stack]
    exact List.Perm.refl _
  | branching left right =>
    refine ⟨3, ?_⟩
    change [g, next + 1, next, next + 2].Perm [g, next, next + 1, next + 2]
    exact (List.Perm.swap _ _ _).cons g

theorem length_ids_ofExpansion (g next : NodeId) (origin : Origin) (expansion : Expansion) :
    (ofExpansion g next origin expansion).ids.length = expansion.added + 1 := by
  cases expansion with
  | linear first others => simp [ofExpansion, ids, ids_stack, Expansion.added]
  | branching left right => rfl

theorem size_expand {g : NodeId} {origin : Origin} {expansion : Expansion} (hnodup : t.ids.Nodup)
    (hg : g ∈ t.goals) :
    (t.graft g (ofExpansion g t.size origin expansion)).size = t.size + expansion.added := by
  let sub := ofExpansion g t.size origin expansion
  have hperm : (g :: (t.graft g sub).ids).Perm (t.ids ++ sub.ids) := cons_ids_graft_perm hnodup hg
  have hlength := hperm.length_eq
  rw [List.length_cons, List.length_append, length_ids_ofExpansion] at hlength
  exact Nat.succ.inj hlength

theorem lt_of_mem_stack {origin : Origin} {fragments : List Fragment} {above : List Entry}
    {p : Spot} {next : NodeId} (h : p ∈ (stack origin next fragments).spotsFrom above)
    (habove : ∀ e ∈ above, e.id < next) : ∀ e ∈ p.above, e.id < p.id := by
  induction fragments generalizing next above with
  | nil =>
    obtain rfl := List.mem_singleton.mp h
    exact habove
  | cons fragment others ih =>
    rcases List.mem_cons.mp h with rfl | h
    · exact habove
    · refine ih h (List.forall_mem_cons.mpr ⟨Nat.lt_succ_self next, fun e he => ?_⟩)
      exact Nat.lt_succ_of_lt (habove e he)

/-- Numbers grow downwards also in what an expansion puts in the place of a goal. -/
theorem lt_of_mem_ofExpansion {origin : Origin} {expansion : Expansion} {above : List Entry}
    {p : Spot} {g next : NodeId} (hg : g < next)
    (h : p ∈ (ofExpansion g next origin expansion).spotsFrom above)
    (habove : ∀ e ∈ above, e.id < g) : ∀ e ∈ p.above, e.id < p.id := by
  have hnext : ∀ e ∈ above, e.id < next := fun e he => Nat.lt_trans (habove e he) hg
  cases expansion with
  | linear first others =>
    rcases List.mem_cons.mp h with rfl | h
    · exact habove
    · exact lt_of_mem_stack h (List.forall_mem_cons.mpr ⟨hg, hnext⟩)
  | branching left right =>
    rcases mem_spotsFrom_branching.mp h with rfl | rfl | rfl | rfl
    · exact habove
    · exact List.forall_mem_cons.mpr ⟨Nat.lt_succ_of_lt hg, fun e he =>
        Nat.lt_succ_of_lt (hnext e he)⟩
    · exact hnext
    · exact List.forall_mem_cons.mpr ⟨Nat.lt_add_of_pos_right (by decide), fun e he =>
        Nat.lt_add_right 2 (hnext e he)⟩

/-! ### Well-numbered tableaux -/

/-- The numbers are those below the number of nodes, and grow downwards. -/
structure WellNumbered (t : Tableau) : Prop where
  perm : t.ids.Perm (List.range t.size)
  ordered : ∀ p ∈ t.spots, ∀ e ∈ p.above, e.id < p.id

namespace WellNumbered

theorem nodup (h : t.WellNumbered) : t.ids.Nodup :=
  h.perm.nodup_iff.mpr List.nodup_range

theorem mem_ids_iff (h : t.WellNumbered) {id : NodeId} : id ∈ t.ids ↔ id < t.size := by
  rw [h.perm.mem_iff, List.mem_range]

theorem start (signed : Signed) : (Tableau.start signed).WellNumbered where
  perm := by
    change [0, 1].Perm (List.range 2)
    exact List.Perm.refl _
  ordered := by
    simp [Tableau.start, spots, spotsFrom]

theorem expand {g : NodeId} {origin : Origin} {expansion : Expansion} (h : t.WellNumbered)
    (hg : g ∈ t.goals) : (t.expand g origin expansion).1.WellNumbered where
  perm := by
    obtain ⟨n, hsub⟩ := ids_ofExpansion_perm g t.size origin expansion
    -- the number of the goal is taken away and given to the first fragment, the others are new
    have hids : (t.expand g origin expansion).1.ids.Perm (List.range (t.size + n)) := by
      have hcons := (cons_ids_graft_perm h.nodup hg).trans ((hsub.append_left t.ids).trans
        List.perm_middle)
      refine hcons.cons_inv.trans ((h.perm.append_right _).trans ?_)
      have happend := List.range'_append_1 (s := 0) (m := t.size) (n := n)
      rw [Nat.zero_add] at happend
      rw [List.range_eq_range', List.range_eq_range', happend]
    rwa [size, hids.length_eq, List.length_range]
  ordered p hp := by
    rcases mem_spots_graft.mp hp with ⟨hp, -⟩ | ⟨closing, upper, hgoal, hp⟩
    · exact h.ordered p hp
    · exact lt_of_mem_ofExpansion (h.mem_ids_iff.mp (goals_subset_ids hg)) hp (h.ordered _ hgoal)

/-- Numbers go down on the way up. -/
theorem pairwise_above {p : Spot} (h : t.WellNumbered) (hp : p ∈ t.spots) :
    p.above.Pairwise (fun e e' => e'.id < e.id) := by
  suffices hgen : ∀ upper lower, p.above = lower ++ upper →
      upper.Pairwise (fun e e' => e'.id < e.id) from hgen p.above [] rfl
  intro upper
  induction upper with
  | nil => exact fun _ _ => .nil
  | cons e upper ih =>
    intro lower habove
    refine List.pairwise_cons.mpr ⟨fun e' he' => ?_, ih (lower ++ [e]) (by simp [habove])⟩
    exact h.ordered _ (mem_spots_of_above hp habove) e' he'

end WellNumbered

theorem ids_closeBelow (id : NodeId) (σ : Substitution) (t : Tableau) :
    (t.closeBelow id σ).ids = t.ids := by
  rw [← map_id_spotsFrom _ [], ← map_id_spotsFrom t []]
  change (t.closeBelow id σ).spots.map Spot.id = t.spots.map Spot.id
  rw [spots_closeBelow, List.map_map]
  exact List.map_congr_left fun p _ => Spot.closeBelow_id

theorem WellNumbered.closeBelow {id : NodeId} {σ : Substitution} (h : t.WellNumbered) :
    (t.closeBelow id σ).WellNumbered where
  perm := by
    rw [size, ids_closeBelow]
    exact h.perm
  ordered p hp := by
    rw [spots_closeBelow, List.mem_map] at hp
    obtain ⟨q, hq, rfl⟩ := hp
    simpa using h.ordered q hq

end Tableau

end SignedTableaux
