import Mathlib.Data.List.Nodup
import SignedTableaux.Tableau.Node

/-!
# Spots in a tableau

A spot is a node seen from the root: what it holds, and the entries above it. What holds on every
branch of a tableau is said about its spots, and each walk and each change of a tableau is a simple
matter of its spots: grafting replaces one goal by the spots of what is grafted, with the entries
above the goal below them, and closing marks the open goals below a node.

## Main definitions

* `Spot` — a node with the entries above it, nearest first
* `Tableau.spots` — all spots, from the top
* `Spot.below` — whether a spot is at or below a node
* `Tableau.spot?` — the spot of a number

## Main results

* `Tableau.spot_eq_of_id_eq` — in a tableau without repeated numbers a number has one spot
* `Tableau.mem_spots_of_above` — the entries above a spot have spots themselves
* `Tableau.lineage?_eq`, `Tableau.branch?_eq` — the walks upwards
* `Tableau.mem_openGoalsBelow` — the walk downwards to the open goals
* `Tableau.mem_spots_graft` — the spots after grafting
* `Tableau.spots_closeBelow` — the spots after closing
-/

namespace SignedTableaux

/-- Where no two elements share a key, an element is what its key finds. -/
theorem find?_eq_some_of_nodup {α : Type} {key : α → NodeId} {l : List α} {a : α}
    (hnodup : (l.map key).Nodup) (h : a ∈ l) : l.find? (key · = key a) = some a := by
  cases hfind : l.find? (key · = key a) with
  | none => exact absurd (List.find?_eq_none.mp hfind a h) (by simp)
  | some b =>
    have hkey : key b = key a := by simpa using List.find?_some hfind
    rw [List.inj_on_of_nodup_map hnodup (List.mem_of_find?_eq_some hfind) h hkey]

theorem Node.content_of_asEntry {node : Node} {entry : Entry} (h : node.asEntry = some entry) :
    node.content = .entry entry := by
  cases hcontent : node.content <;> simp_all [Node.asEntry]

/-- A node with the entries above it, nearest first. -/
structure Spot where
  id : NodeId
  content : Content
  above : List Entry

namespace Spot

/-- The entries at and above a spot, nearest first. -/
def branch (p : Spot) : List Entry :=
  match p.content with
  | .entry entry => entry :: p.above
  | .goal _ => p.above

/-- Whether a spot is at or below a node. -/
def below (p : Spot) (id : NodeId) : Prop :=
  p.id = id ∨ id ∈ p.above.map Entry.id

instance (p : Spot) (id : NodeId) : Decidable (p.below id) :=
  inferInstanceAs (Decidable (_ ∨ _))

/-- The spot after a substitution has closed its goal, if it is an open one. -/
def close (σ : Substitution) (p : Spot) : Spot :=
  match p.content with
  | .goal none => { p with content := .goal (some σ) }
  | _ => p

/-- The spot after the open goals at and below a node have been closed. -/
def closeBelow (id : NodeId) (σ : Substitution) (p : Spot) : Spot :=
  if p.below id then p.close σ else p

variable {id : NodeId} {σ : Substitution} {p : Spot}

@[simp] theorem closeBelow_id : (p.closeBelow id σ).id = p.id := by
  unfold closeBelow close
  split
  · split <;> rfl
  · rfl

@[simp] theorem closeBelow_above : (p.closeBelow id σ).above = p.above := by
  unfold closeBelow close
  split
  · split <;> rfl
  · rfl

/-- Entries stay, closed goals stay closed, and open goals are closed where they are below. -/
theorem closeBelow_content :
    (p.closeBelow id σ).content =
      if p.content = .goal none ∧ p.below id then .goal (some σ) else p.content := by
  obtain ⟨id', content, above⟩ := p
  unfold closeBelow close
  rcases content with entry | (_ | τ) <;> split <;> simp_all

@[simp] theorem closeBelow_content_eq_entry {e : Entry} :
    (p.closeBelow id σ).content = .entry e ↔ p.content = .entry e := by
  rw [closeBelow_content]
  split
  · next h => simp [h.1]
  · rfl

end Spot

namespace Tableau

/-- The spots of a part of a tableau, below the given entries. -/
def spotsFrom (above : List Entry) : Tableau → List Spot
  | .goal id closing => [⟨id, .goal closing, above⟩]
  | .step entry rest => ⟨entry.id, .entry entry, above⟩ :: rest.spotsFrom (entry :: above)
  | .fork left right => left.spotsFrom above ++ right.spotsFrom above

/-- All spots of a tableau, each before those below it, and left before right. -/
def spots (t : Tableau) : List Spot :=
  t.spotsFrom []

variable {t : Tableau} {above : List Entry} {p : Spot}

theorem map_id_spotsFrom (t : Tableau) (above : List Entry) :
    (t.spotsFrom above).map Spot.id = t.ids := by
  induction t generalizing above with
  | goal id closing => rfl
  | step entry rest ih => simp [spotsFrom, ids, ih]
  | fork left right ihl ihr => simp [spotsFrom, ids, ihl, ihr]

theorem id_mem_ids (h : p ∈ t.spotsFrom above) : p.id ∈ t.ids := by
  rw [← map_id_spotsFrom t above]
  exact List.mem_map_of_mem h

theorem spot_eq_of_id_eq (hnodup : t.ids.Nodup) {q : Spot} (hp : p ∈ t.spotsFrom above)
    (hq : q ∈ t.spotsFrom above) (h : p.id = q.id) : p = q := by
  rw [← map_id_spotsFrom t above] at hnodup
  exact List.inj_on_of_nodup_map hnodup hp hq h

theorem id_of_content_entry {entry : Entry} (h : p ∈ t.spotsFrom above)
    (hentry : p.content = .entry entry) : p.id = entry.id := by
  induction t generalizing above with
  | goal id closing =>
    obtain rfl := List.mem_singleton.mp h
    exact Content.noConfusion hentry
  | step e rest ih =>
    rcases List.mem_cons.mp h with rfl | h
    · obtain rfl := Content.entry.inj hentry
      rfl
    · exact ih h
  | fork left right ihl ihr => exact (List.mem_append.mp h).elim ihl ihr

/-- A spot is below the entries that its part of the tableau is below. -/
theorem suffix_above (h : p ∈ t.spotsFrom above) : above <:+ p.above := by
  induction t generalizing above with
  | goal id closing =>
    obtain rfl := List.mem_singleton.mp h
    exact List.suffix_rfl
  | step e rest ih =>
    rcases List.mem_cons.mp h with rfl | h
    · exact List.suffix_rfl
    · exact (List.suffix_cons e above).trans (ih h)
  | fork left right ihl ihr => exact (List.mem_append.mp h).elim ihl ihr

/-- An entry above a spot has a spot itself, with the same entries above it. -/
theorem mem_spots_of_above {upper lower : List Entry} {e : Entry} (h : p ∈ t.spots)
    (habove : p.above = lower ++ e :: upper) : ⟨e.id, .entry e, upper⟩ ∈ t.spots := by
  -- below entries `outer`, the entry is one of `outer` or has a spot in this part
  suffices hgen : ∀ (outer : List Entry) (t : Tableau), p ∈ t.spotsFrom outer →
      e :: upper <:+ outer ∨ ⟨e.id, .entry e, upper⟩ ∈ t.spotsFrom outer by
    rcases hgen [] t h with hnil | hmem
    · exact absurd (List.suffix_nil.mp hnil) (List.cons_ne_nil _ _)
    · exact hmem
  clear h
  intro outer t h
  induction t generalizing outer with
  | goal id closing =>
    obtain rfl := List.mem_singleton.mp h
    exact .inl ⟨lower, habove.symm⟩
  | step e' rest ih =>
    rcases List.mem_cons.mp h with rfl | h
    · exact .inl ⟨lower, habove.symm⟩
    · rcases ih (e' :: outer) h with hsuffix | hmem
      · rcases List.suffix_cons_iff.mp hsuffix with heq | hsuffix
        · obtain ⟨rfl, rfl⟩ := List.cons.inj heq
          exact .inr List.mem_cons_self
        · exact .inl hsuffix
      · exact .inr (List.mem_cons_of_mem _ hmem)
  | fork left right ihl ihr =>
    rcases List.mem_append.mp h with h | h
    · exact (ihl outer h).imp_right (List.mem_append_left _)
    · exact (ihr outer h).imp_right (List.mem_append_right _)

/-! ### Walks

A walk from a node goes from the first spot with its number, which is its only one as long as no
number is repeated. -/

/-- The spot of a number. -/
def spot? (t : Tableau) (id : NodeId) : Option Spot :=
  t.spots.find? (·.id = id)

theorem mem_of_spot?_eq_some {id : NodeId} (h : t.spot? id = some p) : p ∈ t.spots ∧ p.id = id :=
  ⟨List.mem_of_find?_eq_some h, by simpa using List.find?_some h⟩

theorem spot?_eq_some (hnodup : t.ids.Nodup) (h : p ∈ t.spots) : t.spot? p.id = some p :=
  find?_eq_some_of_nodup ((t.map_id_spotsFrom []).symm ▸ hnodup) h

/-- A walk through an entry puts it before all that is above it. -/
theorem append_comp_append_singleton (e : Entry) (outer : List Entry) :
    ((fun es => es ++ outer) ∘ fun es => es ++ [e]) = fun es : List Entry => es ++ e :: outer := by
  funext es
  simp

theorem lineage?_append (t : Tableau) (id : NodeId) (outer : List Entry) :
    (t.lineage? id).map (· ++ outer) =
      ((t.spotsFrom outer).find? (·.id = id)).map Spot.above := by
  induction t generalizing outer with
  | goal id' closing => by_cases h : id' = id <;> simp [lineage?, spotsFrom, h]
  | step e rest ih =>
    by_cases h : e.id = id
    · simp [lineage?, spotsFrom, h]
    · simp [lineage?, spotsFrom, h, ← ih, append_comp_append_singleton]
  | fork left right ihl ihr =>
    simp only [lineage?, spotsFrom, List.find?_append, Option.map_or, ihl, ihr]

theorem lineage?_eq (t : Tableau) (id : NodeId) : t.lineage? id = (t.spot? id).map Spot.above := by
  simpa [spot?, spots] using t.lineage?_append id []

theorem branch?_append (t : Tableau) (id : NodeId) (outer : List Entry) :
    (t.branch? id).map (· ++ outer) =
      ((t.spotsFrom outer).find? (·.id = id)).map Spot.branch := by
  induction t generalizing outer with
  | goal id' closing => by_cases h : id' = id <;> simp [branch?, spotsFrom, Spot.branch, h]
  | step e rest ih =>
    by_cases h : e.id = id
    · simp [branch?, spotsFrom, Spot.branch, h]
    · simp [branch?, spotsFrom, h, ← ih, append_comp_append_singleton]
  | fork left right ihl ihr =>
    simp only [branch?, spotsFrom, List.find?_append, Option.map_or, ihl, ihr]

theorem branch?_eq (t : Tableau) (id : NodeId) : t.branch? id = (t.spot? id).map Spot.branch := by
  simpa [spot?, spots] using t.branch?_append id []

theorem branch?_of_mem_spots (hnodup : t.ids.Nodup) (h : p ∈ t.spots) :
    t.branch? p.id = some p.branch := by
  rw [branch?_eq, spot?_eq_some hnodup h]
  rfl

/-- A node knows of the entries above it only the nearest one, as its parent. -/
theorem map_nodesFrom (t : Tableau) (above : List Entry) (position : Nat) :
    (t.nodesFrom (above.head?.map Entry.id) position).map
        (fun node => (node.id, node.content, node.parent)) =
      (t.spotsFrom above).map fun p => (p.id, p.content, p.above.head?.map Entry.id) := by
  induction t generalizing above position with
  | goal id closing => rfl
  | step e rest ih =>
    simp only [nodesFrom, spotsFrom, List.map_cons, List.cons.injEq, true_and]
    exact ih (e :: above) 0
  | fork left right ihl ihr =>
    simp only [nodesFrom, spotsFrom, List.map_append, ihl, ihr]

theorem map_nodes (t : Tableau) :
    t.nodes.map (fun node => (node.id, node.content, node.parent)) =
      t.spots.map fun p => (p.id, p.content, p.above.head?.map Entry.id) :=
  t.map_nodesFrom [] 0

theorem exists_spot_of_mem_nodes {node : Node} (h : node ∈ t.nodes) :
    ∃ p ∈ t.spots, p.id = node.id ∧ p.content = node.content ∧
      p.above.head?.map Entry.id = node.parent := by
  have hmem := List.mem_map_of_mem (f := fun node => (node.id, node.content, node.parent)) h
  rw [map_nodes, List.mem_map] at hmem
  simpa only [Prod.mk.injEq] using hmem

theorem exists_above_of_mem_nodes {node : Node} {e : Entry} (h : node ∈ t.nodes)
    (hentry : node.asEntry = some e) :
    node.id = e.id ∧ ∃ above, ⟨e.id, .entry e, above⟩ ∈ t.spots := by
  obtain ⟨⟨id, content, above⟩, hp, rfl, hcontent, -⟩ := exists_spot_of_mem_nodes h
  obtain rfl : content = .entry e := hcontent.trans (Node.content_of_asEntry hentry)
  obtain hid : node.id = e.id := id_of_content_entry hp rfl
  exact ⟨hid, above, hid ▸ hp⟩

theorem exists_node_of_mem_spots (h : p ∈ t.spots) :
    ∃ node ∈ t.nodes, node.id = p.id ∧ node.content = p.content ∧
      node.parent = p.above.head?.map Entry.id := by
  have hmem := List.mem_map_of_mem
    (f := fun p : Spot => (p.id, p.content, p.above.head?.map Entry.id)) h
  rw [← map_nodes, List.mem_map] at hmem
  simpa only [Prod.mk.injEq] using hmem

theorem exists_spot_of_node? {id : NodeId} {node : Node} (hnodup : t.ids.Nodup)
    (h : t.node? id = some node) : ∃ p, t.spot? id = some p ∧ p.content = node.content := by
  obtain ⟨p, hp, hid, hcontent, -⟩ := exists_spot_of_mem_nodes (List.mem_of_find?_eq_some h)
  have hnode : node.id = id := by simpa using List.find?_some h
  rw [← hnode, ← hid, spot?_eq_some hnodup hp]
  exact ⟨p, rfl, hcontent⟩

theorem mem_goals_iff (above : List Entry) {g : NodeId} :
    g ∈ t.goals ↔ ∃ p ∈ t.spotsFrom above, (∃ closing, p.content = .goal closing) ∧ p.id = g := by
  induction t generalizing above with
  | goal id closing => simp [goals, spotsFrom, eq_comm]
  | step e rest ih => simp [goals, spotsFrom, ih (e :: above)]
  | fork left right ihl ihr =>
    simp [goals, spotsFrom, ihl above, ihr above, or_and_right, exists_or]

theorem mem_goals_of_mem_spots {g : NodeId} {closing : Option Substitution}
    (h : ⟨g, .goal closing, above⟩ ∈ t.spots) : g ∈ t.goals :=
  (mem_goals_iff []).mpr ⟨_, h, ⟨closing, rfl⟩, rfl⟩

theorem mem_openGoals_iff (above : List Entry) {g : NodeId} :
    g ∈ t.openGoals ↔ ∃ p ∈ t.spotsFrom above, p.content = .goal none ∧ p.id = g := by
  induction t generalizing above with
  | goal id closing => cases closing <;> simp [openGoals, spotsFrom, eq_comm]
  | step e rest ih => simp [openGoals, spotsFrom, ih (e :: above)]
  | fork left right ihl ihr =>
    simp [openGoals, spotsFrom, ihl above, ihr above, or_and_right, exists_or]

/-- An entry whose number is among those above a spot is above it. -/
theorem mem_above_of_isAncestor {e : Entry} (hnodup : t.ids.Nodup) (hp : p ∈ t.spots)
    (he : ⟨e.id, .entry e, above⟩ ∈ t.spots) (h : t.isAncestor e.id p.id) : e ∈ p.above := by
  obtain ⟨e', he', hid⟩ : ∃ e' ∈ p.above, e'.id = e.id := by
    simpa [isAncestor, ancestors, lineage?_eq, spot?_eq_some hnodup hp] using h
  obtain ⟨lower, upper, habove⟩ := List.append_of_mem he'
  have heq := spot_eq_of_id_eq hnodup (mem_spots_of_above hp habove) he hid
  obtain rfl : e' = e := Content.entry.inj (congrArg Spot.content heq)
  exact he'

theorem isAncestor_of_mem_above {e : Entry} (hnodup : t.ids.Nodup) (hp : p ∈ t.spots)
    (he : e ∈ p.above) : t.isAncestor e.id p.id := by
  simpa [isAncestor, ancestors, lineage?_eq, spot?_eq_some hnodup hp] using ⟨e, he, rfl⟩

theorem subtree?_eq_none {id : NodeId} (h : id ∉ t.ids) : t.subtree? id = none := by
  induction t with
  | goal id' closing => simp_all [subtree?, ids, eq_comm]
  | step e rest ih => simp_all [subtree?, ids, eq_comm]
  | fork left right ihl ihr => simp_all [subtree?, ids]

/-- An open goal at or below a node is among those that are looked for there. -/
theorem mem_openGoalsBelow {id : NodeId} (hnodup : t.ids.Nodup) (h : p ∈ t.spots)
    (hopen : p.content = .goal none) (hbelow : p.below id) : p.id ∈ t.openGoalsBelow id := by
  -- the node is in the part that is looked at, not above it
  suffices hgen : ∀ (t : Tableau) (outer : List Entry), t.ids.Nodup → p ∈ t.spotsFrom outer →
      id ∉ outer.map Entry.id →
        id ∈ t.ids ∧ ∃ sub, t.subtree? id = some sub ∧ p.id ∈ sub.openGoals by
    obtain ⟨-, sub, hsub, hgoal⟩ := hgen t [] hnodup h List.not_mem_nil
    simpa [openGoalsBelow, hsub] using hgoal
  clear h hnodup
  intro t
  induction t with
  | goal id' closing =>
    intro outer _ h houter
    obtain rfl := List.mem_singleton.mp h
    obtain rfl : closing = none := by simpa using hopen
    obtain rfl : id' = id := hbelow.resolve_right houter
    exact ⟨List.mem_singleton.mpr rfl, .goal id' none, by simp [subtree?], by simp [openGoals]⟩
  | step e rest ih =>
    intro outer hnodup h houter
    obtain ⟨hfresh, hrest⟩ := List.nodup_cons.mp hnodup
    rcases List.mem_cons.mp h with rfl | h
    · exact Content.noConfusion hopen
    · by_cases he : e.id = id
      · refine ⟨by simp [ids, he], .step e rest, by simp [subtree?, he], ?_⟩
        change p.id ∈ rest.openGoals
        exact (mem_openGoals_iff _).mpr ⟨p, h, hopen, rfl⟩
      · have houter' : id ∉ (e :: outer).map Entry.id := by simpa [Ne.symm he] using houter
        obtain ⟨hid, sub, hsub, hgoal⟩ := ih (e :: outer) hrest h houter'
        exact ⟨List.mem_cons_of_mem _ hid, sub, by simp [subtree?, he, hsub], hgoal⟩
  | fork left right ihl ihr =>
    intro outer hnodup h houter
    obtain ⟨hl, hr, hdisjoint⟩ := List.nodup_append'.mp hnodup
    rcases List.mem_append.mp h with h | h
    · obtain ⟨hid, sub, hsub, hgoal⟩ := ihl outer hl h houter
      exact ⟨List.mem_append_left _ hid, sub, by simp [subtree?, hsub], hgoal⟩
    · obtain ⟨hid, sub, hsub, hgoal⟩ := ihr outer hr h houter
      have hleft : left.subtree? id = none := subtree?_eq_none fun hmem => hdisjoint hmem hid
      exact ⟨List.mem_append_right _ hid, sub, by simp [subtree?, hsub, hleft], hgoal⟩

/-- What is looked for below a node are open goals there. -/
theorem exists_spot_of_mem_openGoalsBelow {id g : NodeId} (h : g ∈ t.openGoalsBelow id) :
    ∃ p ∈ t.spots, p.content = .goal none ∧ p.below id ∧ p.id = g := by
  suffices hgen : ∀ (t sub : Tableau) (outer : List Entry), t.subtree? id = some sub →
      g ∈ sub.openGoals → ∃ p ∈ t.spotsFrom outer, p.content = .goal none ∧ p.below id ∧
        p.id = g by
    cases hsub : t.subtree? id with
    | none => simp [openGoalsBelow, hsub] at h
    | some sub => exact hgen t sub [] hsub (by simpa [openGoalsBelow, hsub] using h)
  intro t sub
  induction t with
  | goal id' closing =>
    intro outer hsub hgoal
    rw [subtree?, Option.ite_none_right_eq_some, Option.some.injEq] at hsub
    obtain ⟨rfl, rfl⟩ := hsub
    obtain ⟨p, hp, hopen, hid⟩ := (mem_openGoals_iff outer).mp hgoal
    obtain rfl := List.mem_singleton.mp hp
    exact ⟨_, hp, hopen, .inl rfl, hid⟩
  | step e rest ih =>
    intro outer hsub hgoal
    rw [subtree?] at hsub
    split at hsub
    · next he =>
      obtain rfl := Option.some.inj hsub
      obtain ⟨p, hp, hopen, hid⟩ := (mem_openGoals_iff (t := rest) (e :: outer)).mp hgoal
      have hmem := (suffix_above hp).subset List.mem_cons_self
      exact ⟨p, List.mem_cons_of_mem _ hp, hopen, .inr (List.mem_map.mpr ⟨e, hmem, he⟩), hid⟩
    · obtain ⟨p, hp, hfound⟩ := ih (e :: outer) hsub hgoal
      exact ⟨p, List.mem_cons_of_mem _ hp, hfound⟩
  | fork left right ihl ihr =>
    intro outer hsub hgoal
    rcases Option.or_eq_some_iff.mp hsub with hsub | ⟨-, hsub⟩
    · obtain ⟨p, hp, hfound⟩ := ihl outer hsub hgoal
      exact ⟨p, List.mem_append_left _ hp, hfound⟩
    · obtain ⟨p, hp, hfound⟩ := ihr outer hsub hgoal
      exact ⟨p, List.mem_append_right _ hp, hfound⟩

/-! ### Changes -/

/-- Two alternatives are two entries, with a goal below each. -/
theorem mem_spotsFrom_branching {g next : NodeId} {origin : Origin} {left right : Fragment} :
    p ∈ (ofExpansion g next origin (.branching left right)).spotsFrom above ↔
      p = ⟨g, .entry (entryOf g origin left), above⟩ ∨
        p = ⟨next + 1, .goal none, entryOf g origin left :: above⟩ ∨
        p = ⟨next, .entry (entryOf next origin right), above⟩ ∨
        p = ⟨next + 2, .goal none, entryOf next origin right :: above⟩ := by
  simp [ofExpansion, spotsFrom, entryOf]

theorem mem_spots_graft {g : NodeId} {sub : Tableau} :
    p ∈ (t.graft g sub).spotsFrom above ↔
      (p ∈ t.spotsFrom above ∧ ∀ closing, p.content = .goal closing → p.id ≠ g) ∨
        ∃ closing upper, ⟨g, .goal closing, upper⟩ ∈ t.spotsFrom above ∧
          p ∈ sub.spotsFrom upper := by
  induction t generalizing above with
  | goal id closing =>
    by_cases hid : id = g
    · subst hid
      simp only [graft, if_pos, spotsFrom, List.mem_singleton]
      constructor
      · exact fun h => .inr ⟨closing, above, rfl, h⟩
      · rintro (⟨rfl, hne⟩ | ⟨_, _, heq, h⟩)
        · exact absurd rfl (hne closing rfl)
        · injection heq with _ _ habove
          exact habove ▸ h
    · simp only [graft, if_neg hid, spotsFrom, List.mem_singleton]
      constructor
      · rintro rfl
        exact .inl ⟨rfl, fun _ _ => hid⟩
      · rintro (⟨rfl, -⟩ | ⟨_, _, heq, -⟩)
        · rfl
        · injection heq with hg
          exact absurd hg.symm hid
  | step e rest ih =>
    simp only [graft, spotsFrom, List.mem_cons, ih]
    constructor
    · rintro (rfl | ⟨h, hne⟩ | ⟨closing, upper, hgoal, h⟩)
      · exact .inl ⟨.inl rfl, fun _ heq => Content.noConfusion heq⟩
      · exact .inl ⟨.inr h, hne⟩
      · exact .inr ⟨closing, upper, .inr hgoal, h⟩
    · rintro (⟨rfl | h, hne⟩ | ⟨closing, upper, heq | hgoal, h⟩)
      · exact .inl rfl
      · exact .inr (.inl ⟨h, hne⟩)
      · injection heq with _ hcontent
        exact Content.noConfusion hcontent
      · exact .inr (.inr ⟨closing, upper, hgoal, h⟩)
  | fork left right ihl ihr =>
    simp only [graft, spotsFrom, List.mem_append, ihl, ihr]
    grind

/-- Where no number is repeated, grafting replaces one spot. -/
theorem mem_spots_graft_of_nodup {g : NodeId} {closing : Option Substitution} {sub : Tableau}
    (hnodup : t.ids.Nodup) (hg : ⟨g, .goal closing, above⟩ ∈ t.spots) :
    p ∈ (t.graft g sub).spots ↔ p ∈ t.spots ∧ p.id ≠ g ∨ p ∈ sub.spotsFrom above := by
  rw [spots, mem_spots_graft]
  constructor
  · rintro (⟨hp, hne⟩ | ⟨closing', upper, hgoal, hp⟩)
    · refine .inl ⟨hp, fun hid => ?_⟩
      obtain rfl := spot_eq_of_id_eq hnodup hp hg hid
      exact hne closing rfl hid
    · have heq := spot_eq_of_id_eq hnodup hgoal hg rfl
      injection heq with _ _ habove
      exact .inr (habove ▸ hp)
  · rintro (⟨hp, hid⟩ | hp)
    · exact .inl ⟨hp, fun _ _ => hid⟩
    · exact .inr ⟨closing, above, hg, hp⟩

theorem spotsFrom_close (σ : Substitution) (t : Tableau) (above : List Entry) :
    (t.close σ).spotsFrom above = (t.spotsFrom above).map (Spot.close σ) := by
  induction t generalizing above with
  | goal id closing => cases closing <;> rfl
  | step e rest ih => simp [close, spotsFrom, ih, Spot.close]
  | fork left right ihl ihr => simp [close, spotsFrom, ihl, ihr]

theorem spots_closeBelow (id : NodeId) (σ : Substitution) (t : Tableau) :
    (t.closeBelow id σ).spots = t.spots.map (Spot.closeBelow id σ) := by
  -- the node is not above the part that is looked at
  suffices hgen : ∀ (t : Tableau) (above : List Entry), id ∉ above.map Entry.id →
      (t.closeBelow id σ).spotsFrom above = (t.spotsFrom above).map (Spot.closeBelow id σ) from
    hgen t [] List.not_mem_nil
  intro t
  induction t with
  | goal id' closing =>
    intro above habove
    rw [closeBelow]
    split
    · next h =>
      cases closing <;> simp [close, spotsFrom, Spot.closeBelow, Spot.below, Spot.close, h]
    · next h =>
      have hnot : ¬ (Spot.mk id' (.goal closing) above).below id := not_or.mpr ⟨h, habove⟩
      simp [spotsFrom, Spot.closeBelow, hnot]
  | step e rest ih =>
    intro above habove
    rw [closeBelow]
    split
    · next h =>
      have hrest : ∀ p ∈ rest.spotsFrom (e :: above), p.below id := fun p hp =>
        .inr (List.mem_map.mpr ⟨e, (suffix_above hp).subset List.mem_cons_self, h⟩)
      simp only [spotsFrom, List.map_cons, spotsFrom_close, List.cons.injEq]
      refine ⟨by simp [Spot.closeBelow, Spot.close], List.map_congr_left fun p hp => ?_⟩
      rw [Spot.closeBelow, if_pos (hrest p hp)]
    · next h =>
      have habove' : id ∉ (e :: above).map Entry.id := by
        simpa [Ne.symm h] using habove
      have hnot : ¬ (Spot.mk e.id (.entry e) above).below id := not_or.mpr ⟨h, habove⟩
      simp [spotsFrom, ih _ habove', Spot.closeBelow, hnot]
  | fork left right ihl ihr =>
    intro above habove
    simp [closeBelow, spotsFrom, ihl above habove, ihr above habove]

/-- A goal after closing was a goal before, below the same entries. -/
theorem exists_goal_of_mem_closeBelow {id : NodeId} {σ : Substitution}
    {closing : Option Substitution} (hp : p ∈ (t.closeBelow id σ).spots)
    (hgoal : p.content = .goal closing) :
    ∃ q ∈ t.spots, ∃ closing', q.content = .goal closing' ∧ q.above = p.above := by
  rw [spots_closeBelow] at hp
  obtain ⟨q, hq, rfl⟩ := List.mem_map.mp hp
  refine ⟨q, hq, ?_⟩
  rw [Spot.closeBelow_above]
  cases hcontent : q.content with
  | entry e =>
    rw [Spot.closeBelow_content_eq_entry.mpr hcontent] at hgoal
    cases hgoal
  | goal closing' => exact ⟨closing', rfl, rfl⟩

/-- Closing changes no entry. -/
theorem mem_spots_closeBelow_iff {id : NodeId} {σ : Substitution} {e : Entry} :
    ⟨e.id, .entry e, above⟩ ∈ (t.closeBelow id σ).spots ↔ ⟨e.id, .entry e, above⟩ ∈ t.spots := by
  rw [spots_closeBelow, List.mem_map]
  constructor
  · rintro ⟨q, hq, heq⟩
    have hid : q.id = e.id := by rw [← q.closeBelow_id, heq]
    have hcontent : q.content = .entry e := Spot.closeBelow_content_eq_entry.mp (by rw [heq])
    have habove : q.above = above := by rw [← q.closeBelow_above, heq]
    rwa [← hid, ← hcontent, ← habove]
  · exact fun h => ⟨_, h, by simp [Spot.closeBelow, Spot.close]⟩

end Tableau

end SignedTableaux
