import SignedTableaux.Proofs.Tableau.Order

/-!
# Walks down and up

A walk down from a node takes a node from the top of a stack and puts its children there instead; a
walk up goes from a node to its parent, as long as it has one. The first follows child lists and the
second follows parents, and nothing but the links between nodes makes them agree. What is left of a
walk down is at any time what stands at and below the nodes of the stack, one after the other.

## Main definitions

* `Tableau.Visits`, `Tableau.Climbs` — the two walks, step by step along the links
* `Tableau.WalksAgree` — what the two walks find, and in which order

## Main results

* `Tableau.subtree?_induction` — from what is at and below a node to the whole
* `Tableau.descendants_eq` — a node, and what is below each child in turn
* `Tableau.visits_flatMap` — what is left of a walk down
* `Tableau.mem_descendants_iff` — the walk down finds the nodes that have its start above them
* `Tableau.openGoalsBelow_eq_filter_descendants`, `Tableau.WellFormed.goals_eq_filter_descendants` —
  goals and open goals are what a walk down finds of them
* `Tableau.WellFormed.walksAgree` — the walks agree in well-formed tableaux
-/

namespace SignedTableaux.Tableau

variable {t sub : Tableau} {a b id : NodeId} {n : Node}

/-! ### Parts of parts -/

/-- A property that passes from a part to what stands around it passes from what is at and below a
node to the whole. -/
theorem subtree?_induction {P : Tableau → Prop} (h : t.subtree? a = some sub) (found : P sub)
    (step : ∀ e rest, rest.subtree? a = some sub → P rest → P (.step e rest))
    (left : ∀ l r, l.subtree? a = some sub → P l → P (.fork l r))
    (right : ∀ l r, r.subtree? a = some sub → P r → P (.fork l r)) : P t := by
  induction t with
  | goal id closing =>
    rw [subtree?, Option.ite_none_right_eq_some, Option.some.injEq] at h
    exact h.2 ▸ found
  | step e rest ih =>
    rw [subtree?] at h
    split at h
    · exact Option.some.inj h ▸ found
    · exact step e rest h (ih h)
  | fork l r ihl ihr =>
    rcases Option.or_eq_some_iff.mp h with h | ⟨-, h⟩
    · exact left l r h (ihl h)
    · exact right l r h (ihr h)

theorem infix_ids_of_subtree? (h : t.subtree? a = some sub) : sub.ids <:+: t.ids := by
  refine subtree?_induction (P := fun t => sub.ids <:+: t.ids) h List.infix_rfl ?step ?left ?right
  case step => exact fun e rest _ ih => ih.trans (List.suffix_cons e.id rest.ids).isInfix
  case left => exact fun l r _ ih => ih.trans (List.prefix_append l.ids r.ids).isInfix
  case right => exact fun l r _ ih => ih.trans (List.suffix_append l.ids r.ids).isInfix

theorem subtree?_fork_of_mem_left {left right : Tableau} (h : a ∈ left.ids) :
    (fork left right).subtree? a = left.subtree? a := by
  obtain ⟨sub, hsub⟩ := exists_subtree? h
  rw [subtree?, hsub, Option.some_or]

theorem subtree?_fork_of_mem_right {left right : Tableau} (hnodup : (fork left right).ids.Nodup)
    (h : a ∈ right.ids) : (fork left right).subtree? a = right.subtree? a := by
  have hleft : a ∉ left.ids := fun hmem => (List.nodup_append'.mp hnodup).2.2 hmem h
  rw [subtree?, subtree?_eq_none hleft, Option.none_or]

theorem subtree?_step_of_mem {e : Entry} {rest : Tableau} (hnodup : (step e rest).ids.Nodup)
    (h : a ∈ rest.ids) : (step e rest).subtree? a = rest.subtree? a := by
  refine if_neg fun heq => (List.nodup_cons.mp hnodup).1 ?_
  rwa [heq]

/-- Within the part at and below a node, everything stands as in the whole. -/
theorem subtree?_of_mem_subtree? (hnodup : t.ids.Nodup) (h : t.subtree? a = some sub)
    (hb : b ∈ sub.ids) : t.subtree? b = sub.subtree? b := by
  refine subtree?_induction (P := fun t => t.ids.Nodup → t.subtree? b = sub.subtree? b) h
    (fun _ => rfl) ?step ?left ?right hnodup
  case step =>
    intro e rest h ih hnodup
    rw [subtree?_step_of_mem hnodup ((infix_ids_of_subtree? h).subset hb)]
    exact ih (List.nodup_cons.mp hnodup).2
  case left =>
    intro l r h ih hnodup
    rw [subtree?_fork_of_mem_left ((infix_ids_of_subtree? h).subset hb)]
    exact ih (List.nodup_append'.mp hnodup).1
  case right =>
    intro l r h ih hnodup
    rw [subtree?_fork_of_mem_right hnodup ((infix_ids_of_subtree? h).subset hb)]
    exact ih (List.nodup_append'.mp hnodup).2.1

theorem descendants_of_subtree? (h : t.subtree? a = some sub) : t.descendants a = sub.ids := by
  rw [descendants, h]
  rfl

theorem descendants_congr {t' : Tableau} (h : t.subtree? a = t'.subtree? a) :
    t.descendants a = t'.descendants a := by
  rw [descendants, h]
  rfl

/-- What is at and below a node of a walk down is an unbroken part of the walk. -/
theorem infix_descendants (hnodup : t.ids.Nodup) (ha : a ∈ t.ids) (hb : b ∈ t.descendants a) :
    t.descendants b <:+: t.descendants a := by
  obtain ⟨sub, hsub⟩ := exists_subtree? ha
  rw [descendants_of_subtree? hsub] at hb ⊢
  obtain ⟨part, hpart⟩ := exists_subtree? hb
  rw [descendants_of_subtree? ((subtree?_of_mem_subtree? hnodup hsub hb).trans hpart)]
  exact infix_ids_of_subtree? hpart

theorem infix_ids_descendants (ha : a ∈ t.ids) : t.descendants a <:+: t.ids := by
  obtain ⟨sub, hsub⟩ := exists_subtree? ha
  rw [descendants_of_subtree? hsub]
  exact infix_ids_of_subtree? hsub

/-! ### Down along child lists -/

theorem tops_subset_ids (h : a ∈ t.tops) : a ∈ t.ids :=
  (t.tops_append_children_perm none 0).subset (List.mem_append_left _ h)

/-- A tableau is what stands at and below its topmost nodes, one after the other. -/
theorem ids_eq_flatMap_tops (hnodup : t.ids.Nodup) : t.ids = t.tops.flatMap t.descendants := by
  induction t with
  | goal id closing => simp [ids, tops, descendants, subtree?]
  | step e rest => simp [ids, tops, descendants, subtree?]
  | fork left right ihl ihr =>
    obtain ⟨hl, hr, -⟩ := List.nodup_append'.mp hnodup
    have hleft : left.tops.flatMap (fork left right).descendants =
        left.tops.flatMap left.descendants :=
      List.flatMap_congr fun c hc =>
        descendants_congr (subtree?_fork_of_mem_left (tops_subset_ids hc))
    have hright :
        right.tops.flatMap (fork left right).descendants = right.tops.flatMap right.descendants :=
      List.flatMap_congr fun c hc =>
        descendants_congr (subtree?_fork_of_mem_right hnodup (tops_subset_ids hc))
    rw [ids, tops, List.flatMap_append, hleft, hright, ← ihl hl, ← ihr hr]

/-- A node is a goal without children, or an entry whose children are the topmost nodes below it. -/
theorem subtree?_of_mem_nodesFrom {parent : Option NodeId} {position : Nat} (hnodup : t.ids.Nodup)
    (hn : n ∈ t.nodesFrom parent position) :
    (n.children = [] ∧ ∃ closing, t.subtree? n.id = some (.goal n.id closing)) ∨
      ∃ e rest, n.id = e.id ∧ n.children = rest.tops ∧ t.subtree? n.id = some (.step e rest) := by
  induction t generalizing parent position with
  | goal id closing =>
    obtain rfl := List.mem_singleton.mp hn
    exact .inl ⟨rfl, closing, if_pos rfl⟩
  | step e rest ih =>
    rcases List.mem_cons.mp hn with rfl | hn
    · exact .inr ⟨e, rest, rfl, rfl, if_pos rfl⟩
    · rw [subtree?_step_of_mem hnodup (mem_ids_of_mem_nodesFrom hn)]
      exact ih (List.nodup_cons.mp hnodup).2 hn
  | fork left right ihl ihr =>
    obtain ⟨hl, hr, -⟩ := List.nodup_append'.mp hnodup
    rcases List.mem_append.mp hn with hn | hn
    · rw [subtree?_fork_of_mem_left (mem_ids_of_mem_nodesFrom hn)]
      exact ihl hl hn
    · rw [subtree?_fork_of_mem_right hnodup (mem_ids_of_mem_nodesFrom hn)]
      exact ihr hr hn

/-- A walk down finds the node that it starts from, and then what is at and below each child in
turn. -/
theorem descendants_eq (hnodup : t.ids.Nodup) (hn : n ∈ t.nodes) :
    t.descendants n.id = n.id :: n.children.flatMap t.descendants := by
  rcases subtree?_of_mem_nodesFrom hnodup hn with
    ⟨hchildren, closing, hsub⟩ | ⟨e, rest, hid, hchildren, hsub⟩
  · rw [descendants_of_subtree? hsub, hchildren]
    rfl
  · have hrest : (step e rest).ids.Nodup := hnodup.sublist (infix_ids_of_subtree? hsub).sublist
    have hbelow : ∀ c ∈ rest.tops, t.descendants c = rest.descendants c := by
      intro c hc
      have hmem := tops_subset_ids hc
      have hpart := subtree?_of_mem_subtree? hnodup hsub (List.mem_cons_of_mem e.id hmem)
      exact descendants_congr (hpart.trans (subtree?_step_of_mem hrest hmem))
    rw [descendants_of_subtree? hsub, hchildren, List.flatMap_congr hbelow,
      ← ids_eq_flatMap_tops (List.nodup_cons.mp hrest).2, ids, hid]

/-- The walk down, with the nodes that are still to be visited on a stack: the children of a node
take its place. -/
inductive Visits (t : Tableau) : (stack found : List NodeId) → Prop
  | done : t.Visits [] []
  | visit {n : Node} {stack found : List NodeId} (hn : n ∈ t.nodes)
      (hrest : t.Visits (n.children ++ stack) found) : t.Visits (n.id :: stack) (n.id :: found)

/-- What is left of a walk down is what stands at and below the nodes of the stack. -/
theorem visits_flatMap (hnodup : t.ids.Nodup) {stack : List NodeId}
    (hstack : ∀ a ∈ stack, a ∈ t.ids) : t.Visits stack (stack.flatMap t.descendants) := by
  -- by induction on the number of nodes that are left
  induction hlength : (stack.flatMap t.descendants).length generalizing stack with
  | zero =>
    cases stack with
    | nil => exact .done
    | cons a stack =>
      obtain ⟨n, hn, rfl⟩ := exists_node (hstack a List.mem_cons_self)
      simp [descendants_eq hnodup hn] at hlength
  | succ k ih =>
    cases stack with
    | nil => simp at hlength
    | cons a stack =>
      obtain ⟨n, hn, rfl⟩ := exists_node (hstack a List.mem_cons_self)
      rw [List.flatMap_cons, descendants_eq hnodup hn, List.cons_append] at hlength ⊢
      rw [← List.flatMap_append] at hlength ⊢
      refine .visit hn (ih (fun c hc => ?_) (Nat.succ.inj hlength))
      rcases List.mem_append.mp hc with hc | hc
      · exact children_subset_ids hn hc
      · exact hstack c (List.mem_cons_of_mem _ hc)

/-! ### Goals on the way down -/

/-- The spots of a part of the tableau that are of some kind are the nodes there that pass a test,
if the test looks at nothing but what a node holds. -/
theorem map_id_filter_spots {upper : List Entry} {test : Node → Bool} {select : Spot → Bool}
    (hnodup : t.ids.Nodup) (htest : ∀ n p, n.content = p.content → test n = select p)
    (hspots : ∀ p ∈ sub.spotsFrom upper, p ∈ t.spots) :
    ((sub.spotsFrom upper).filter select).map Spot.id =
      sub.ids.filter fun c => (t.node? c).any test := by
  rw [← sub.map_id_spotsFrom upper, List.filter_map]
  refine congrArg _ (List.filter_congr fun p hp => ?_)
  obtain ⟨n, hn, hcontent⟩ := exists_node?_of_mem_spots hnodup (hspots p hp)
  rw [Function.comp_apply, hn, Option.any_some, htest n p hcontent]

theorem isOpen_of_content {p : Spot} (h : n.content = p.content) :
    (n.isGoal && !n.isClosed) = p.isOpen := by
  rw [Spot.isOpen, ← h]
  rcases hcontent : n.content with e | (_ | σ) <;>
    simp [Node.isGoal, Node.asEntry, Node.isClosed, Node.closing?, hcontent]

theorem isGoal_of_content {p : Spot} (h : n.content = p.content) : n.isGoal = p.isGoal := by
  rw [Spot.isGoal, ← h]
  rcases hcontent : n.content with e | closing <;> simp [Node.isGoal, Node.asEntry, hcontent]

/-- The open goals at and below a node are those that the walk down from it finds. -/
theorem openGoalsBelow_eq_filter_descendants (hnodup : t.ids.Nodup) (id : NodeId) :
    t.openGoalsBelow id =
      (t.descendants id).filter fun c => (t.node? c).any fun n => n.isGoal && !n.isClosed := by
  cases hsub : t.subtree? id with
  | none => simp [openGoalsBelow, descendants, hsub]
  | some sub =>
    obtain ⟨upper, hspots⟩ := exists_spots_subtree? hnodup hsub
    have hmem : ∀ p ∈ sub.spotsFrom upper, p ∈ t.spots := by
      rw [hspots]
      exact fun p => List.mem_of_mem_filter
    rw [descendants_of_subtree? hsub, openGoalsBelow, hsub, Option.map_some, Option.getD_some,
      openGoals_eq sub upper]
    exact map_id_filter_spots hnodup (fun _ _ => isOpen_of_content) hmem

/-! ### Up along parents -/

/-- The walk up: it goes to the parent, as long as there is one. -/
inductive Climbs (t : Tableau) : (a : NodeId) → (found : List NodeId) → Prop
  | done {n : Node} (hn : n ∈ t.nodes) (hparent : n.parent = none) : t.Climbs n.id []
  | up {n : Node} {k : NodeId} {found : List NodeId} (hn : n ∈ t.nodes)
      (hparent : n.parent = some k) (hrest : t.Climbs k found) : t.Climbs n.id (k :: found)

/-- The walk up from a spot finds the entries above it. -/
theorem climbs_above {p : Spot} (hp : p ∈ t.spots) : t.Climbs p.id (p.above.map Entry.id) := by
  obtain ⟨id, content, above⟩ := p
  induction above generalizing id content with
  | nil =>
    obtain ⟨n, hn, rfl, -, hparent⟩ := exists_node_of_mem_spots hp
    exact .done hn hparent
  | cons e upper ih =>
    obtain ⟨n, hn, rfl, -, hparent⟩ := exists_node_of_mem_spots hp
    have habove : e :: upper = [] ++ e :: upper := rfl
    exact .up hn hparent (ih e.id (.entry e) (mem_spots_of_above hp habove))

theorem exists_spot (h : a ∈ t.ids) : ∃ p ∈ t.spots, p.id = a := by
  rw [← t.map_id_spotsFrom []] at h
  exact List.mem_map.mp h

theorem mem_ids_of_isAncestor (h : t.isAncestor a b) : b ∈ t.ids := by
  cases hspot : t.spot? b with
  | none => simp [isAncestor, ancestors_eq_nil hspot] at h
  | some p =>
    obtain ⟨hp, rfl⟩ := mem_of_spot?_eq_some hspot
    exact id_mem_ids hp

/-! ### Both walks -/

/-- The walk down finds its start, and the nodes that have it above them. -/
theorem mem_descendants_iff (hnodup : t.ids.Nodup) (ha : a ∈ t.ids) (hb : b ∈ t.ids) :
    b ∈ t.descendants a ↔ b = a ∨ t.isAncestor a b := by
  obtain ⟨sub, hsub⟩ := exists_subtree? ha
  obtain ⟨upper, hspots⟩ := exists_spots_subtree? hnodup hsub
  obtain ⟨p, hp, rfl⟩ := exists_spot hb
  rw [descendants_of_subtree? hsub, ← sub.map_id_spotsFrom upper, hspots, isAncestor,
    ancestors_of_mem_spots hnodup hp, decide_eq_true_iff]
  constructor
  · intro hmem
    obtain ⟨q, hq, hid⟩ := List.mem_map.mp hmem
    obtain ⟨hq, hbelow⟩ := List.mem_filter.mp hq
    rw [spot_eq_of_id_eq hnodup hq hp hid] at hbelow
    exact of_decide_eq_true hbelow
  · exact fun hbelow => List.mem_map_of_mem (List.mem_filter.mpr ⟨hp, decide_eq_true hbelow⟩)

/-- What the walks down and up find, and in which order. -/
structure WalksAgree (t : Tableau) : Prop where
  /-- Going down takes the children from a stack. -/
  visits : ∀ a ∈ t.ids, t.Visits [a] (t.descendants a)
  /-- Going up ends, at a node without a parent. -/
  climbs : ∀ a ∈ t.ids, t.Climbs a (t.ancestors a)
  mem_descendants_iff : ∀ a ∈ t.ids, ∀ b ∈ t.ids, b ∈ t.descendants a ↔ b = a ∨ t.isAncestor a b
  nodup_descendants : ∀ a ∈ t.ids, (t.descendants a).Nodup
  /-- A node comes before all nodes below it. -/
  sublist_descendants : ∀ a ∈ t.ids, ∀ b ∈ t.descendants a, ∀ c, t.isAncestor b c →
    [b, c].Sublist (t.descendants a)
  /-- A node comes first, and what is below one child comes before what is below the next. -/
  descendants_eq : ∀ n ∈ t.nodes, t.descendants n.id = n.id :: n.children.flatMap t.descendants
  /-- Nothing comes between the nodes at and below one node. -/
  infix_descendants : ∀ a ∈ t.ids, ∀ b ∈ t.descendants a, t.descendants b <:+: t.descendants a
  decreasing : ∀ a ∈ t.ids, (a :: t.ancestors a).Pairwise (· > ·)
  getLast?_ancestors : ∀ a ∈ t.ids, a ≠ t.root → (t.ancestors a).getLast? = some t.root

namespace WellFormed

/-- The walk down from the root finds all nodes. -/
theorem descendants_root (h : t.WellFormed) : t.descendants t.root = t.ids := by
  obtain ⟨e, rest, rfl⟩ := exists_step_of_rootEntry h.rooted
  exact descendants_of_subtree? (if_pos rfl)

theorem map_id_nodes_eq_descendants (h : t.WellFormed) :
    t.nodes.map Node.id = t.descendants t.root := by
  rw [map_id_nodes, h.descendants_root]

theorem goals_eq_filter_descendants (h : t.WellFormed) :
    t.goals = (t.descendants t.root).filter fun c => (t.node? c).any Node.isGoal := by
  rw [h.descendants_root, goals_eq t []]
  exact map_id_filter_spots h.numbered.nodup (fun _ _ => isGoal_of_content) fun _ => id

/-- The open goals are those at and below the root. -/
theorem openGoalsBelow_root (h : t.WellFormed) : t.openGoalsBelow t.root = t.openGoals := by
  obtain ⟨e, rest, rfl⟩ := exists_step_of_rootEntry h.rooted
  simp [openGoalsBelow, subtree?, root]

theorem nodup_descendants_root (h : t.WellFormed) : (t.descendants t.root).Nodup := by
  rw [h.descendants_root]
  exact h.numbered.nodup

/-- A node comes before what is below it. -/
theorem sublist_descendants {c : NodeId} (h : t.WellFormed) (ha : a ∈ t.ids)
    (hb : b ∈ t.descendants a) (hc : t.isAncestor b c) : [b, c].Sublist (t.descendants a) := by
  have hnodup := h.numbered.nodup
  have hids : b ∈ t.ids := (infix_ids_descendants ha).subset hb
  have hmem := (mem_descendants_iff hnodup hids (mem_ids_of_isAncestor hc)).mpr (.inr hc)
  have hne : c ≠ b := Nat.ne_of_gt (h.numbered.lt_of_isAncestor hc)
  have hinfix := infix_descendants hnodup ha hb
  obtain ⟨n, hn, rfl⟩ := exists_node hids
  rw [descendants_eq hnodup hn] at hmem hinfix
  have hrest := (List.mem_cons.mp hmem).resolve_left hne
  exact ((List.singleton_sublist.mpr hrest).cons_cons n.id).trans hinfix.sublist

/-- The walk up ends at the root. -/
theorem getLast?_ancestors (h : t.WellFormed) (ha : a ∈ t.ids) (hroot : a ≠ t.root) :
    (t.ancestors a).getLast? = some t.root := by
  obtain ⟨p, hp, rfl⟩ := exists_spot ha
  rw [ancestors_of_mem_spots h.numbered.nodup hp]
  obtain ⟨e, rest, rfl⟩ := exists_step_of_rootEntry h.rooted
  have hrest : p ∈ rest.spotsFrom [e] := by
    rcases List.mem_cons.mp hp with rfl | hp
    · exact absurd rfl hroot
    · exact hp
  obtain ⟨lower, habove⟩ := suffix_above hrest
  rw [← habove, List.map_append, List.map_singleton, List.getLast?_concat]
  rfl

theorem walksAgree (h : t.WellFormed) : t.WalksAgree where
  visits a ha := by
    have hvisits := visits_flatMap h.numbered.nodup (List.forall_mem_singleton.mpr ha)
    rwa [List.flatMap_singleton] at hvisits
  climbs a ha := by
    obtain ⟨p, hp, rfl⟩ := exists_spot ha
    rw [ancestors_of_mem_spots h.numbered.nodup hp]
    exact climbs_above hp
  mem_descendants_iff _ ha _ hb := Tableau.mem_descendants_iff h.numbered.nodup ha hb
  nodup_descendants _ ha := h.numbered.nodup.sublist (infix_ids_descendants ha).sublist
  sublist_descendants _ ha _ hb _ hc := h.sublist_descendants ha hb hc
  descendants_eq _ hn := Tableau.descendants_eq h.numbered.nodup hn
  infix_descendants _ ha _ hb := Tableau.infix_descendants h.numbered.nodup ha hb
  decreasing a _ := h.numbered.pairwise_cons_ancestors a
  getLast?_ancestors _ ha hroot := h.getLast?_ancestors ha hroot

end WellFormed

end SignedTableaux.Tableau
