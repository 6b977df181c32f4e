import SignedTableaux.Proofs.Tableau.Numbering

/-!
# Entries of a tableau

The entries of all branches, each once. Growth adds the entries of an expansion to them, and closing
changes none.

## Main definitions

* `Tableau.entries` — the entries, from the top
* `Tableau.reopen` — the tableau with all its goals open

## Main results

* `Tableau.mem_entries_iff` — entries are what some spot holds
* `Tableau.map_id_filter_nodes` — entries are what the nodes hold
* `Tableau.content_of_mem_ofExpansion` — what an expansion puts in the place of a goal
* `Tableau.reopen_closeBelow` — closing changes nothing but the state of goals
* `Tableau.entries_graft_perm`, `Tableau.entries_closeBelow` — the two ways a tableau changes
-/

namespace SignedTableaux.Tableau

variable {t : Tableau} {e : Entry}

/-- The entries, each before those below it, and left before right. -/
def entries : Tableau → List Entry
  | .goal _ _ => []
  | .step entry rest => entry :: rest.entries
  | .fork left right => left.entries ++ right.entries

theorem mem_entries_iff (above : List Entry) :
    e ∈ t.entries ↔ ∃ upper, ⟨e.id, .entry e, upper⟩ ∈ t.spotsFrom above := by
  induction t generalizing above with
  | goal id closing => simp [entries, spotsFrom]
  | step e' rest ih =>
    rw [entries, List.mem_cons, ih (e' :: above), spotsFrom]
    constructor
    · rintro (rfl | ⟨upper, h⟩)
      · exact ⟨above, List.mem_cons_self⟩
      · exact ⟨upper, List.mem_cons_of_mem _ h⟩
    · rintro ⟨upper, h⟩
      rcases List.mem_cons.mp h with heq | h
      · exact .inl (Content.entry.inj (congrArg Spot.content heq))
      · exact .inr ⟨upper, h⟩
  | fork left right ihl ihr =>
    simp only [entries, spotsFrom, List.mem_append, ihl above, ihr above, exists_or]

theorem mem_entries_of_mem_branch {p : Spot} (hp : p ∈ t.spots) (he : e ∈ p.branch) :
    e ∈ t.entries := by
  refine (mem_entries_iff []).mpr ?_
  have habove : e ∈ p.above → ∃ upper, ⟨e.id, .entry e, upper⟩ ∈ t.spots := by
    intro he
    obtain ⟨lower, upper, habove⟩ := List.append_of_mem he
    exact ⟨upper, mem_spots_of_above hp habove⟩
  obtain ⟨id, content, above⟩ := p
  cases content with
  | goal closing => exact habove he
  | entry e' =>
    rcases List.mem_cons.mp he with rfl | he
    · obtain rfl : id = e.id := id_of_content_entry hp rfl
      exact ⟨above, hp⟩
    · exact habove he

/-- No entry has the number of a goal. -/
theorem id_ne_of_mem_entries {g : NodeId} (hnodup : t.ids.Nodup) (hg : g ∈ t.goals)
    (h : e ∈ t.entries) : e.id ≠ g := by
  rintro rfl
  obtain ⟨upper, h⟩ := (mem_entries_iff []).mp h
  obtain ⟨p, hp, ⟨closing, hcontent⟩, hid⟩ := (mem_goals_iff []).mp hg
  rw [spot_eq_of_id_eq hnodup hp h hid] at hcontent
  exact Content.noConfusion hcontent

theorem entry_eq_of_id_eq {e' : Entry} (hnodup : t.ids.Nodup) (h : e ∈ t.entries)
    (h' : e' ∈ t.entries) (hid : e.id = e'.id) : e = e' := by
  obtain ⟨upper, h⟩ := (mem_entries_iff []).mp h
  obtain ⟨upper', h'⟩ := (mem_entries_iff []).mp h'
  exact Content.entry.inj (congrArg Spot.content (spot_eq_of_id_eq hnodup h h' hid))

theorem map_id_filter_nodesFrom (select : Entry → Bool) (t : Tableau) (parent : Option NodeId)
    (position : Nat) :
    ((t.nodesFrom parent position).filter (·.asEntry.any select)).map Node.id =
      (t.entries.filter select).map Entry.id := by
  induction t generalizing parent position with
  | goal id closing => simp [nodesFrom, entries, Node.asEntry]
  | step e rest ih =>
    have hhead : (Node.mk e.id (.entry e) parent position rest.tops).asEntry = some e := rfl
    cases hselect : select e <;> simp [nodesFrom, entries, hhead, hselect, ih]
  | fork left right ihl ihr => simp [nodesFrom, entries, ihl, ihr]

/-- The numbers of entries of some kind are those of the nodes that hold them. -/
theorem map_id_filter_nodes (select : Entry → Bool) (t : Tableau) :
    (t.nodes.filter (·.asEntry.any select)).map Node.id =
      (t.entries.filter select).map Entry.id :=
  t.map_id_filter_nodesFrom select none 0

/-! ### Entries of an expansion -/

section Expansions

variable {origin : Origin} {next g : NodeId} {above : List Entry} {p : Spot}

/-- The goal of a stack is open, and its entries come from the fragments. -/
theorem content_of_mem_stack {fragments : List Fragment}
    (h : p ∈ (stack origin next fragments).spotsFrom above) :
    p.content = .goal none ∨
      ∃ e, p.content = .entry e ∧ ∃ f ∈ fragments, e = entryOf e.id origin f := by
  induction fragments generalizing next above with
  | nil =>
    obtain rfl := List.mem_singleton.mp h
    exact .inl rfl
  | cons fragment others ih =>
    rcases List.mem_cons.mp h with rfl | h
    · exact .inr ⟨_, rfl, fragment, List.mem_cons_self, rfl⟩
    · refine (ih h).imp_right ?_
      rintro ⟨e, hentry, f, hf, he⟩
      exact ⟨e, hentry, f, List.mem_cons_of_mem _ hf, he⟩

/-- The goals of an expansion are open, and its entries come from the fragments. -/
theorem content_of_mem_ofExpansion {expansion : Expansion}
    (h : p ∈ (ofExpansion g next origin expansion).spotsFrom above) :
    p.content = .goal none ∨
      ∃ e, p.content = .entry e ∧ ∃ f ∈ expansion.fragments, e = entryOf e.id origin f := by
  cases expansion with
  | linear first others =>
    rcases List.mem_cons.mp h with rfl | h
    · exact .inr ⟨_, rfl, first, List.mem_cons_self, rfl⟩
    · refine (content_of_mem_stack h).imp_right ?_
      rintro ⟨e, hentry, f, hf, he⟩
      exact ⟨e, hentry, f, List.mem_cons_of_mem _ hf, he⟩
  | branching left right =>
    rcases mem_spotsFrom_branching.mp h with rfl | rfl | rfl | rfl
    · exact .inr ⟨_, rfl, left, by simp [Expansion.fragments], rfl⟩
    · exact .inl rfl
    · exact .inr ⟨_, rfl, right, by simp [Expansion.fragments], rfl⟩
    · exact .inl rfl

theorem exists_fragment_of_mem_ofExpansion {expansion : Expansion}
    (h : p ∈ (ofExpansion g next origin expansion).spotsFrom above)
    (hentry : p.content = .entry e) : ∃ f ∈ expansion.fragments, e = entryOf e.id origin f := by
  rcases content_of_mem_ofExpansion h with hgoal | ⟨e', hentry', hf⟩
  · exact Content.noConfusion (hgoal.symm.trans hentry)
  · obtain rfl := Content.entry.inj (hentry'.symm.trans hentry)
    exact hf

theorem exists_fragment_of_mem_entries {expansion : Expansion}
    (h : e ∈ (ofExpansion g next origin expansion).entries) :
    ∃ f ∈ expansion.fragments, e = entryOf e.id origin f := by
  obtain ⟨upper, h⟩ := (mem_entries_iff []).mp h
  exact exists_fragment_of_mem_ofExpansion h rfl

end Expansions

/-! ### Changes -/

/-- Grafting adds the entries of what is grafted. -/
theorem entries_graft_perm {g : NodeId} (sub : Tableau) (hnodup : t.ids.Nodup) (hg : g ∈ t.goals) :
    (t.graft g sub).entries.Perm (t.entries ++ sub.entries) := by
  induction t with
  | goal id closing =>
    obtain rfl := List.mem_singleton.mp hg
    simp [graft, entries]
  | step e rest ih => exact (ih (List.nodup_cons.mp hnodup).2 hg).cons e
  | fork left right ihl ihr =>
    obtain ⟨hl, hr, hdisjoint⟩ := List.nodup_append'.mp hnodup
    rcases List.mem_append.mp hg with hgl | hgr
    · have hright : g ∉ right.goals := fun h =>
        hdisjoint (goals_subset_ids hgl) (goals_subset_ids h)
      rw [graft, graft_of_not_mem hright, entries, entries]
      refine ((ihl hl hgl).append_right right.entries).trans ?_
      rw [List.append_assoc, List.append_assoc]
      exact List.perm_append_comm.append_left _
    · have hleft : g ∉ left.goals := fun h =>
        hdisjoint (goals_subset_ids h) (goals_subset_ids hgr)
      rw [graft, graft_of_not_mem hleft, entries, entries, List.append_assoc]
      exact (ihr hr hgr).append_left _

/-- The tableau with all its goals open. -/
def reopen : Tableau → Tableau
  | .goal id _ => .goal id none
  | .step entry rest => .step entry rest.reopen
  | .fork left right => .fork left.reopen right.reopen

theorem reopen_close (σ : Substitution) (t : Tableau) : (t.close σ).reopen = t.reopen := by
  induction t with
  | goal id closing => cases closing <;> rfl
  | step e rest ih => exact congrArg (step e) ih
  | fork left right ihl ihr => exact congrArg₂ fork ihl ihr

/-- Closing changes nothing but the state of goals. -/
theorem reopen_closeBelow (id : NodeId) (σ : Substitution) (t : Tableau) :
    (t.closeBelow id σ).reopen = t.reopen := by
  induction t with
  | goal id' closing =>
    rw [closeBelow]
    split
    · exact reopen_close σ _
    · rfl
  | step e rest ih =>
    rw [closeBelow]
    split
    · exact congrArg (step e) (reopen_close σ rest)
    · exact congrArg (step e) ih
  | fork left right ihl ihr => exact congrArg₂ fork ihl ihr

theorem entries_reopen (t : Tableau) : t.reopen.entries = t.entries := by
  induction t with
  | goal id closing => rfl
  | step e rest ih => exact congrArg (e :: ·) ih
  | fork left right ihl ihr => exact congrArg₂ (· ++ ·) ihl ihr

theorem entries_closeBelow (id : NodeId) (σ : Substitution) (t : Tableau) :
    (t.closeBelow id σ).entries = t.entries := by
  rw [← entries_reopen, reopen_closeBelow, entries_reopen]

end SignedTableaux.Tableau
