import SignedTableaux.Proofs.Tableau.Persistence

/-!
# Common ancestors

The numbers on the way from a node to the root go down. So the nearest node that is at or above two
nodes is the one with the greatest number, whichever of the two the search starts from. As all ways
end at the root, there is one for any two nodes of a tableau. Where two ways meet they go on
together, so everything else at or above both nodes is above that one.

## Main definitions

* `Tableau.IsNearest` — the node at or above two nodes that all others like it are above

## Main results

* `Tableau.suffix_cons_ancestors` — from a node on it, a way goes on as if it started there
* `Tableau.WellNumbered.commonAncestor?_eq_some_iff` — the nearest common ancestor has the greatest
  number
* `Tableau.WellNumbered.commonAncestor?_comm` — the order of the two nodes does not matter
* `Tableau.WellFormed.exists_commonAncestor` — any two nodes have a common ancestor
* `Tableau.WellNumbered.isNearest` — what is found is the nearest one
* `Tableau.WellFormed.exists_nearest` — every node stands for an entry
-/

namespace SignedTableaux.Tableau

/-- In a list that goes down, the first number with a property is the greatest one. -/
theorem find?_eq_some_iff_of_pairwise {p : NodeId → Bool} {ids : List NodeId} {k : NodeId}
    (h : ids.Pairwise (· > ·)) :
    ids.find? p = some k ↔ (k ∈ ids ∧ p k) ∧ ∀ j ∈ ids, p j → j ≤ k := by
  induction ids with
  | nil => simp
  | cons i ids ih =>
    obtain ⟨hi, hids⟩ := List.pairwise_cons.mp h
    by_cases hp : p i
    · rw [List.find?_cons_of_pos hp, Option.some.injEq]
      constructor
      · rintro rfl
        refine ⟨⟨List.mem_cons_self, hp⟩, fun j hj _ => ?_⟩
        rcases List.mem_cons.mp hj with rfl | hj
        · exact Nat.le_refl _
        · exact Nat.le_of_lt (hi j hj)
      · rintro ⟨⟨hk, -⟩, hmax⟩
        rcases List.mem_cons.mp hk with rfl | hk
        · rfl
        · exact absurd (hmax i List.mem_cons_self hp) (Nat.not_le.mpr (hi k hk))
    · rw [List.find?_cons_of_neg hp, ih hids]
      have hmem : ∀ j, j ∈ i :: ids ∧ p j ↔ j ∈ ids ∧ p j := by
        intro j
        constructor
        · rintro ⟨hj, hpj⟩
          refine ⟨(List.mem_cons.mp hj).resolve_left ?_, hpj⟩
          rintro rfl
          exact hp hpj
        · exact fun ⟨hj, hpj⟩ => ⟨List.mem_cons_of_mem _ hj, hpj⟩
      rw [hmem]
      refine and_congr_right fun _ => ⟨fun hmax j hj hpj => ?_, fun hmax j hj hpj => ?_⟩
      · exact hmax j ((hmem j).mp ⟨hj, hpj⟩).1 hpj
      · exact hmax j (List.mem_cons_of_mem _ hj) hpj

variable {t : Tableau} {a b k : NodeId} {p : Spot}

theorem ancestors_eq_nil (h : t.spot? a = none) : t.ancestors a = [] := by
  rw [ancestors, lineage?_eq, h]
  rfl

/-- From a node on the way to the root, the way goes on as if it started there. -/
theorem suffix_cons_ancestors (hnodup : t.ids.Nodup) (h : k ∈ a :: t.ancestors a) :
    k :: t.ancestors k <:+ a :: t.ancestors a := by
  rcases List.mem_cons.mp h with rfl | h
  · exact List.suffix_rfl
  · cases hspot : t.spot? a with
    | none => simp [ancestors_eq_nil hspot] at h
    | some p =>
      obtain ⟨hp, rfl⟩ := mem_of_spot?_eq_some hspot
      rw [ancestors_of_mem_spots hnodup hp] at h ⊢
      obtain ⟨e, he, rfl⟩ := List.mem_map.mp h
      obtain ⟨lower, upper, habove⟩ := List.append_of_mem he
      have hupper : t.ancestors e.id = upper.map Entry.id :=
        ancestors_of_mem_spots hnodup (mem_spots_of_above hp habove)
      rw [hupper, habove, List.map_append, List.map_cons]
      exact (List.suffix_append _ _).trans (List.suffix_cons _ _)

namespace WellNumbered

theorem pairwise_cons_ancestors (h : t.WellNumbered) (a : NodeId) :
    (a :: t.ancestors a).Pairwise (· > ·) := by
  cases hspot : t.spot? a with
  | none =>
    rw [ancestors_eq_nil hspot]
    exact List.pairwise_singleton _ _
  | some p =>
    obtain ⟨hp, rfl⟩ := mem_of_spot?_eq_some hspot
    rw [ancestors_of_mem_spots h.nodup hp]
    refine List.pairwise_cons.mpr ⟨fun k hk => ?_, List.pairwise_map.mpr (h.pairwise_above hp)⟩
    obtain ⟨e, he, rfl⟩ := List.mem_map.mp hk
    exact h.ordered p hp e he

theorem lt_of_isAncestor (h : t.WellNumbered) (habove : t.isAncestor a b) : a < b :=
  List.rel_of_pairwise_cons (h.pairwise_cons_ancestors b) (of_decide_eq_true habove)

/-- The nearest node at or above two nodes is the one with the greatest number. -/
theorem commonAncestor?_eq_some_iff (h : t.WellNumbered) :
    t.commonAncestor? a b = some k ↔
      (k ∈ a :: t.ancestors a ∧ k ∈ b :: t.ancestors b) ∧
        ∀ j ∈ a :: t.ancestors a, j ∈ b :: t.ancestors b → j ≤ k := by
  rw [commonAncestor?, find?_eq_some_iff_of_pairwise (h.pairwise_cons_ancestors b)]
  simp only [decide_eq_true_eq]
  exact and_congr and_comm
    ⟨fun hmax j hja hjb => hmax j hjb hja, fun hmax j hjb hja => hmax j hja hjb⟩

theorem commonAncestor?_comm (h : t.WellNumbered) (a b : NodeId) :
    t.commonAncestor? a b = t.commonAncestor? b a := by
  refine Option.ext fun k => ?_
  rw [h.commonAncestor?_eq_some_iff, h.commonAncestor?_eq_some_iff]
  exact and_congr and_comm
    ⟨fun hmax j hjb hja => hmax j hja hjb, fun hmax j hja hjb => hmax j hjb hja⟩

/-- Of two nodes on one way to the root, the one with the lesser number is on the way from the
other. -/
theorem mem_cons_ancestors_of_le {j : NodeId} (h : t.WellNumbered) (hk : k ∈ a :: t.ancestors a)
    (hj : j ∈ a :: t.ancestors a) (hle : j ≤ k) : j ∈ k :: t.ancestors k := by
  have hdown := h.pairwise_cons_ancestors a
  obtain ⟨lower, hway⟩ := suffix_cons_ancestors h.nodup hk
  rw [← hway] at hdown hj
  have hlower : j ∉ lower := by
    intro hmem
    have hlt : k < j := (List.pairwise_append.mp hdown).2.2 j hmem k List.mem_cons_self
    exact Nat.not_le.mpr hlt hle
  exact (List.mem_append.mp hj).resolve_left hlower

end WellNumbered

/-- Common ancestors depend only on the nodes above. -/
theorem commonAncestor?_congr {t' : Tableau} (ha : t'.ancestors a = t.ancestors a)
    (hb : t'.ancestors b = t.ancestors b) : t'.commonAncestor? a b = t.commonAncestor? a b := by
  rw [commonAncestor?, commonAncestor?, ha, hb]

/-- What is at or above an entry is an entry. -/
theorem mem_entryIds_of_mem_cons_ancestors {e : Entry} {above : List Entry} (hnodup : t.ids.Nodup)
    (he : ⟨e.id, .entry e, above⟩ ∈ t.spots) (h : k ∈ e.id :: t.ancestors e.id) :
    k ∈ t.entryIds := by
  rcases List.mem_cons.mp h with rfl | h
  · exact mem_entryIds_iff.mpr ⟨_, he, rfl, e, rfl⟩
  · have hancestors : t.ancestors e.id = above.map Entry.id := ancestors_of_mem_spots hnodup he
    rw [hancestors] at h
    obtain ⟨e', he', rfl⟩ := List.mem_map.mp h
    obtain ⟨lower, upper, habove⟩ := List.append_of_mem he'
    exact mem_entryIds_iff.mpr ⟨_, mem_spots_of_above he habove, rfl, e', rfl⟩

namespace WellFormed

/-- Every node but the root has the root above it. -/
theorem eq_or_rootEntry_mem_above (h : t.WellFormed) (hp : p ∈ t.spots) :
    ∃ e, t.rootEntry = some e ∧ (p.content = .entry e ∧ p.id = e.id ∨ e ∈ p.above) := by
  obtain ⟨e, rest, rfl⟩ := exists_step_of_rootEntry h.rooted
  refine ⟨e, rfl, ?_⟩
  rcases List.mem_cons.mp hp with rfl | hp
  · exact .inl ⟨rfl, rfl⟩
  · exact .inr ((suffix_above hp).subset List.mem_cons_self)

/-- Every node stands for an entry. -/
theorem exists_nearest (h : t.WellFormed) (hp : p ∈ t.spots) : ∃ e, t.nearest? p.id = some e := by
  have hne : p.branch ≠ [] := by
    obtain ⟨e, -, ⟨hcontent, -⟩ | habove⟩ := h.eq_or_rootEntry_mem_above hp
    · simp [Spot.branch, hcontent]
    · have habove : p.above ≠ [] := List.ne_nil_of_mem habove
      cases hcontent : p.content <;> simp [Spot.branch, hcontent, habove]
  obtain ⟨e, upper, hbranch⟩ := List.exists_cons_of_ne_nil hne
  exact ⟨e, by rw [nearest?, branch?_of_mem_spots h.numbered.nodup hp, hbranch]; rfl⟩

/-- Any two nodes have a common ancestor. -/
theorem exists_commonAncestor {q : Spot} (h : t.WellFormed) (hp : p ∈ t.spots) (hq : q ∈ t.spots) :
    ∃ k, t.commonAncestor? p.id q.id = some k := by
  have hroot {p : Spot} (hp : p ∈ t.spots) {e : Entry} (he : t.rootEntry = some e) :
      e.id ∈ p.id :: t.ancestors p.id := by
    obtain ⟨e', he', hmem⟩ := h.eq_or_rootEntry_mem_above hp
    obtain rfl := Option.some.inj (he.symm.trans he')
    rw [ancestors_of_mem_spots h.numbered.nodup hp]
    rcases hmem with ⟨-, hid⟩ | hmem
    · exact hid ▸ List.mem_cons_self
    · exact List.mem_cons_of_mem _ (List.mem_map_of_mem hmem)
  obtain ⟨e, he⟩ := Option.isSome_iff_exists.mp h.rooted
  rw [← Option.isSome_iff_exists, commonAncestor?, List.find?_isSome]
  exact ⟨e.id, hroot hq he, by simpa using hroot hp he⟩

end WellFormed

/-! ### The nearest one -/

/-- Whether `c` is at or above both `a` and `b`, and at or below every other such node. -/
structure IsNearest (t : Tableau) (a b c : NodeId) : Prop where
  left : c = a ∨ t.isAncestor c a
  right : c = b ∨ t.isAncestor c b
  nearest : ∀ d, (d = a ∨ t.isAncestor d a) → (d = b ∨ t.isAncestor d b) → d = c ∨ t.isAncestor d c

theorem mem_cons_ancestors_iff : k ∈ a :: t.ancestors a ↔ k = a ∨ t.isAncestor k a := by
  rw [List.mem_cons, isAncestor, decide_eq_true_iff]

theorem WellNumbered.isNearest (h : t.WellNumbered) (hk : t.commonAncestor? a b = some k) :
    t.IsNearest a b k := by
  obtain ⟨⟨hleft, hright⟩, hgreatest⟩ := h.commonAncestor?_eq_some_iff.mp hk
  refine ⟨mem_cons_ancestors_iff.mp hleft, mem_cons_ancestors_iff.mp hright, fun d hda hdb => ?_⟩
  rw [← mem_cons_ancestors_iff] at hda hdb ⊢
  exact h.mem_cons_ancestors_of_le hleft hda (hgreatest d hda hdb)

end SignedTableaux.Tableau
