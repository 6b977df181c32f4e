import SignedTableaux.Proofs.Arena.Walks
import SignedTableaux.Proofs.Tableau.Frame

/-!
# Changes in a store

What the operations on slots do, seen from every number at once: a slot is added under the next
number, its parent lists it last, and all other slots stay. From this follows that an arena goes on
holding the tableau when a goal of the tableau is replaced by what a rule yields, and when goals are
closed. That a goal is the only child of its parent is what makes the new branch the last child.

## Main definitions

* `Arena.Adopts` — a slot is stored as the last child of another
* `Arena.Hangs` — a part of a tableau is stored below a node that had no children
* `Expansion.yield` — an expansion, as lists of fragments

## Main results

* `Arena.insertChild_last` — what an insertion behind all children does
* `Arena.pushChain_eq` — what storing fragments one below the other does
* `Arena.Holds.start`, `Arena.Holds.expand`, `Arena.Holds.closeGoals` — arenas go on holding
  tableaux
-/

namespace SignedTableaux

/-- An expansion, as lists of fragments. -/
def Expansion.yield : Expansion → Yield
  | .linear first others => .linear (first :: others)
  | .branching left right => .branching left right

namespace Tableau

theorem tops_stack (origin : Origin) (next : NodeId) (fragments : List Fragment) :
    (stack origin next fragments).tops = [next] := by
  cases fragments <;> rfl

theorem size_stack (origin : Origin) (next : NodeId) (fragments : List Fragment) :
    (stack origin next fragments).size = fragments.length + 1 := by
  rw [size, ids_stack, List.length_range']

theorem goals_stack (origin : Origin) (next : NodeId) (fragments : List Fragment) :
    (stack origin next fragments).goals = [next + fragments.length] := by
  induction fragments generalizing next with
  | nil => rfl
  | cons fragment others ih =>
    rw [stack, goals, ih, List.length_cons, Nat.add_right_comm, Nat.add_assoc]

end Tableau

namespace Arena

variable {a a' : Arena} {k id : NodeId} {s x : Slot}

/-! ### Single slots -/

theorem lt_length_of_slot? (h : a.slot? id = some s) : id < a.slots.length :=
  (List.getElem?_eq_some_iff.mp h).1

@[simp] theorem root_update (f : Slot → Slot) : (a.update k f).root = a.root := rfl

@[simp] theorem length_update (f : Slot → Slot) :
    (a.update k f).slots.length = a.slots.length :=
  List.length_modify ..

theorem slot?_update_self (f : Slot → Slot) : (a.update k f).slot? k = (a.slot? k).map f := by
  simp [update, slot?]

theorem slot?_update_of_ne (f : Slot → Slot) (h : id ≠ k) :
    (a.update k f).slot? id = a.slot? id := by
  simp [update, slot?, h.symm]

theorem slot?_alloc_new : (a.alloc x).1.slot? a.slots.length = some x := by
  simp [alloc, slot?]

theorem slot?_alloc_of_lt (h : id < a.slots.length) : (a.alloc x).1.slot? id = a.slot? id := by
  simp [alloc, slot?, List.getElem?_append_left h]

/-! ### Insertion behind all children -/

/-- Whether `a'` is `a` with the slot `x` stored as the last child of `k`, whose slot was `s`. -/
structure Adopts (a : Arena) (k : NodeId) (s x : Slot) (a' : Arena) : Prop where
  root_eq : a'.root = a.root
  length_eq : a'.slots.length = a.slots.length + 1
  new : a'.slot? a.slots.length = some { x with parent := some k, position := s.children.length }
  parent : a'.slot? k = some { s with children := s.children ++ [a.slots.length] }
  kept : ∀ id < a.slots.length, id ≠ k → a'.slot? id = a.slot? id

/-- Behind all children there is nothing to move. -/
theorem insertChild_last (x : Slot) (h : a.slot? k = some s) :
    ∃ a', a.insertChild k s.children.length x = (a', a.slots.length) ∧ a.Adopts k s x a' := by
  have hlt := lt_length_of_slot? h
  have hne : a.slots.length ≠ k := Nat.ne_of_gt hlt
  let stored := (a.alloc { x with parent := some k, position := s.children.length }).1
  let a' := stored.update k fun s' =>
    { s' with children := s'.children.insertIdx s.children.length a.slots.length }
  have hparent : a'.slot? k = some { s with children := s.children ++ [a.slots.length] } := by
    rw [slot?_update_self, slot?_alloc_of_lt hlt, h, Option.map_some, List.insertIdx_length_self]
  have hshifted : (a'.children k).drop (s.children.length + 1) = [] := by
    simp [children, hparent]
  refine ⟨a', ?_, rfl, ?_, ?_, hparent, fun id hid hk => ?_⟩
  · change (((a'.children k).drop (s.children.length + 1)).foldl _ a', _) = _
    rw [hshifted]
    rfl
  · simp [a', stored, alloc]
  · rw [slot?_update_of_ne _ hne]
    exact slot?_alloc_new
  · rw [slot?_update_of_ne _ hk]
    exact slot?_alloc_of_lt hid

theorem pushChild_eq (x : Slot) (h : a.slot? k = some s) :
    ∃ a', a.pushChild k x = (a', a.slots.length) ∧ a.Adopts k s x a' := by
  have hlength : (a.children k).length = s.children.length := by simp [children, h]
  rw [pushChild, hlength]
  exact insertChild_last x h

/-! ### Parts of a tableau below a node -/

/-- Whether `a'` is `a` with a part of a tableau stored below `k`, whose slot was `s` and had no
children. -/
structure Hangs (a : Arena) (k : NodeId) (s : Slot) (sub : Tableau) (a' : Arena) : Prop where
  root_eq : a'.root = a.root
  length_eq : a'.slots.length = a.slots.length + sub.size
  new : ∀ n ∈ sub.nodesFrom (some k) 0, a'.slot? n.id = some (.ofNode n)
  parent : a'.slot? k = some { s with children := sub.tops }
  kept : ∀ id < a.slots.length, id ≠ k → a'.slot? id = a.slot? id

theorem appendGoal_eq (h : a.slot? k = some s) (hleaf : s.children = []) :
    ∃ a', a.appendGoal k = (a', a.slots.length) ∧
      a.Hangs k s (.goal a.slots.length none) a' := by
  obtain ⟨a', ha', hadopts⟩ := pushChild_eq .goal h
  refine ⟨a', ha', hadopts.root_eq, hadopts.length_eq, fun n hn => ?_, ?_, hadopts.kept⟩
  · obtain rfl := List.mem_singleton.mp hn
    rw [hadopts.new, hleaf]
    rfl
  · rw [hadopts.parent, hleaf]
    rfl

/-- Fragments one below the other, and a goal below them. -/
theorem pushChain_eq (origin : Origin) (fragments : List Fragment) (h : a.slot? k = some s)
    (hleaf : s.children = []) :
    ∃ a₁ last a₂, a.pushChain k origin fragments = (a₁, last) ∧
      a₁.appendGoal last = (a₂, a.slots.length + fragments.length) ∧
      a.Hangs k s (.stack origin a.slots.length fragments) a₂ := by
  induction fragments generalizing a k s with
  | nil =>
    obtain ⟨a', ha', hangs⟩ := appendGoal_eq h hleaf
    exact ⟨a, k, a', rfl, ha', hangs⟩
  | cons fragment others ih =>
    obtain ⟨b, hb, hadopts⟩ := pushChild_eq (.ofFragment fragment origin) h
    obtain ⟨a₁, last, a₂, hchain, hgoal, hangs⟩ := ih hadopts.new rfl
    have hlength := hadopts.length_eq
    have hlt := lt_length_of_slot? h
    rw [hlength] at hgoal hangs
    refine ⟨a₁, last, a₂, ?_, ?_, hangs.root_eq.trans hadopts.root_eq, ?_, fun n hn => ?_, ?_,
      fun id hid hk => ?_⟩
    · rw [pushChain, hb]
      exact hchain
    · rw [hgoal, List.length_cons, Nat.add_right_comm, Nat.add_assoc]
    · rw [hangs.length_eq, hlength, Tableau.size_stack, Tableau.size_stack, List.length_cons,
        Nat.add_right_comm, Nat.add_assoc]
    · rcases List.mem_cons.mp hn with rfl | hn
      · refine hangs.parent.trans ?_
        rw [hleaf]
        rfl
      · exact hangs.new n hn
    · rw [hangs.kept k (by rw [hlength]; exact Nat.lt_succ_of_lt hlt) (Nat.ne_of_lt hlt),
        hadopts.parent, hleaf, Tableau.tops_stack, List.nil_append]
    · rw [hangs.kept id (by rw [hlength]; exact Nat.lt_succ_of_lt hid) (Nat.ne_of_lt hid),
        hadopts.kept id hid hk]

/-! ### A goal that splits -/

/-- Whether `a'` is `a` with two entries in the place of the goal `g`, and a goal below each. The
parent of `g` is `k`, whose slot was `s` and had no other child. -/
structure Forks (a : Arena) (k g : NodeId) (s : Slot) (left right : Fragment) (origin : Origin)
    (a' : Arena) : Prop where
  root_eq : a'.root = a.root
  length_eq : a'.slots.length = a.slots.length + 3
  parent : a'.slot? k = some { s with children := [g, a.slots.length] }
  left : a'.slot? g = some { Slot.ofFragment left origin with
    parent := some k, position := 0, children := [a.slots.length + 1] }
  right : a'.slot? a.slots.length = some { Slot.ofFragment right origin with
    parent := some k, position := 1, children := [a.slots.length + 2] }
  belowLeft : a'.slot? (a.slots.length + 1) = some { Slot.goal with parent := some g }
  belowRight : a'.slot? (a.slots.length + 2) =
    some { Slot.goal with parent := some a.slots.length }
  kept : ∀ id < a.slots.length, id ≠ g → id ≠ k → a'.slot? id = a.slot? id

/-- The goal is overwritten, and its parent gets a second child. -/
theorem insertChild_fillGoal {g : NodeId} {s goal : Slot} (left : Fragment) (origin : Origin)
    (x : Slot) (hgoal : a.slot? g = some goal) (hparent : goal.parent = some k)
    (hposition : goal.position = 0) (hs : a.slot? k = some s) (hchildren : s.children = [g])
    (hne : k ≠ g) :
    ∃ a', (a.fillGoal g left origin).insertChild k (0 + 1) x = (a', a.slots.length) ∧
      (a.fillGoal g left origin).Adopts k s x a' ∧
      a'.slot? g = some { Slot.ofFragment left origin with parent := some k, position := 0 } := by
  have hlength : (a.fillGoal g left origin).slots.length = a.slots.length := length_update _
  have hfilled : (a.fillGoal g left origin).slot? g =
      some { Slot.ofFragment left origin with parent := some k, position := 0 } := by
    rw [fillGoal, slot?_update_self, hgoal, Option.map_some, hparent, hposition]
  have hs' : (a.fillGoal g left origin).slot? k = some s := by
    rw [fillGoal, slot?_update_of_ne _ hne, hs]
  obtain ⟨a', ha', hadopts⟩ := insertChild_last x hs'
  rw [hchildren, hlength] at ha'
  have hlt := lt_length_of_slot? hfilled
  exact ⟨a', ha', hadopts, (hadopts.kept g hlt hne.symm).trans hfilled⟩

theorem expand_forks {g : NodeId} {s goal : Slot} (left right : Fragment) (origin : Origin)
    (hgoal : a.slot? g = some goal) (hparent : goal.parent = some k) (hposition : goal.position = 0)
    (hs : a.slot? k = some s) (hchildren : s.children = [g]) (hne : k ≠ g) :
    ∃ a', a.expand g (.branching left right) origin =
        (.ok [a.slots.length + 1, a.slots.length + 2], a') ∧
      a.Forks k g s left right origin a' := by
  have hgt := lt_length_of_slot? hgoal
  obtain ⟨a₁, h₁, ⟨hroot₁, hlength₁, hnew₁, hparent₁, hkept₁⟩, hfilled⟩ :=
    insertChild_fillGoal left origin (.ofFragment right origin) hgoal hparent hposition hs hchildren
      hne
  have hlength₀ : (a.fillGoal g left origin).slots.length = a.slots.length := length_update _
  rw [hlength₀] at hlength₁ hnew₁ hparent₁ hkept₁
  rw [hchildren] at hnew₁ hparent₁
  obtain ⟨a₂, h₂, hroot₂, hlength₂, hnew₂, hparent₂, hkept₂⟩ := appendGoal_eq hfilled rfl
  rw [hlength₁] at h₂ hlength₂ hnew₂ hparent₂ hkept₂
  have hright₂ := (hkept₂ a.slots.length (Nat.lt_succ_self _) (Nat.ne_of_gt hgt)).trans hnew₁
  obtain ⟨a₃, h₃, hroot₃, hlength₃, hnew₃, hparent₃, hkept₃⟩ := appendGoal_eq hright₂ rfl
  replace hlength₂ : a₂.slots.length = a.slots.length + 2 := hlength₂
  rw [hlength₂] at h₃ hlength₃ hnew₃ hparent₃ hkept₃
  -- the goals below the two change nothing that was there before
  have hold {id : NodeId} (hid : id < a.slots.length) (hg : id ≠ g) : a₃.slot? id = a₁.slot? id :=
    (hkept₃ id (Nat.lt_add_right 2 hid) (Nat.ne_of_lt hid)).trans
      (hkept₂ id (Nat.lt_succ_of_lt hid) hg)
  refine ⟨a₃, ?_, hroot₃.trans (hroot₂.trans hroot₁), hlength₃, ?_, ?_, hparent₃, ?_, ?_,
    fun id hid hg hk => ?_⟩
  · simp only [expand, parent?, hgoal, Option.bind_some, hparent, Option.map_some, hposition,
      Option.getD_some, h₁, h₂, h₃]
  · exact (hold (lt_length_of_slot? hs) hne).trans hparent₁
  · exact (hkept₃ g (Nat.lt_add_right 2 hgt) (Nat.ne_of_lt hgt)).trans hparent₂
  · refine (hkept₃ _ (Nat.lt_succ_self _) (Nat.succ_ne_self _)).trans ?_
    exact hnew₂ ⟨a.slots.length + 1, .goal none, some g, 0, []⟩ (List.mem_singleton.mpr rfl)
  · exact hnew₃ ⟨a.slots.length + 2, .goal none, some a.slots.length, 0, []⟩
      (List.mem_singleton.mpr rfl)
  · rw [hold hid hg, hkept₁ id hid hk, fillGoal, slot?_update_of_ne _ hg]

/-! ### Goals become formulas -/

namespace Holds

variable {t : Tableau} {g : NodeId} {closing : Option Substitution} {above : List Entry}

theorem mem_ids_ofExpansion (g next : NodeId) (origin : Origin) (expansion : Expansion) :
    g ∈ (Tableau.ofExpansion g next origin expansion).ids := by
  cases expansion with
  | linear first others => exact List.mem_cons_self
  | branching left right => exact List.mem_cons_self

/-- An arena that has the new nodes and, but for the children of the parent, the old ones holds the
tableau after an expansion. -/
theorem of_expand {k : NodeId} {origin : Origin} {expansion : Expansion} (hformed : t.WellFormed)
    (hnode : ⟨g, .goal closing, some k, 0, []⟩ ∈ t.nodes) (hroot : a'.root = t.root)
    (hlength : a'.slots.length = t.size + expansion.added)
    (hnew : ∀ n ∈ (Tableau.ofExpansion g t.size origin expansion).nodesFrom (some k) 0,
      a'.slot? n.id = some (.ofNode n))
    (hold : ∀ m ∈ t.nodes, m.id ≠ g → a'.slot? m.id =
      some (.ofNode (m.adopt g (Tableau.ofExpansion g t.size origin expansion).tops))) :
    a'.Holds (t.expand g origin expansion).1 := by
  have hgoal : g ∈ t.goals := Tableau.WellFormed.mem_goals_of_isGoal hnode rfl
  have hnumbered : (t.expand g origin expansion).1.WellNumbered := hformed.numbered.expand hgoal
  refine of_mem_nodes hnumbered ?_ ?_ fun n hn => ?_
  · obtain ⟨e, rest, rfl⟩ := Tableau.exists_step_of_rootEntry hformed.rooted
    exact hroot
  · exact hlength.trans (Tableau.size_expand hformed.numbered.nodup hgoal).symm
  · rcases Tableau.of_mem_nodes_graft hformed hnumbered.nodup hnode (mem_ids_ofExpansion ..) hn with
      hn | ⟨m, hm, hne, rfl⟩
    · exact hnew n hn
    · exact hold m hm hne

/-- The slot of a goal after it was overwritten. -/
theorem slot?_fillGoal {k : NodeId} (fragment : Fragment) (origin : Origin) (h : a.Holds t)
    (hnodup : t.ids.Nodup) (hnode : ⟨g, .goal closing, some k, 0, []⟩ ∈ t.nodes) :
    (a.fillGoal g fragment origin).slot? g =
      some { Slot.ofFragment fragment origin with parent := some k, position := 0 } := by
  rw [fillGoal, slot?_update_self, h.slot?_of_mem_nodes hnodup hnode]
  rfl

theorem expand_linear {first : Fragment} {others : List Fragment} {origin : Origin}
    (h : a.Holds t) (hformed : t.WellFormed) (hg : ⟨g, .goal closing, above⟩ ∈ t.spots) :
    ∃ a', a.expand g (.linear (first :: others)) origin = (.ok [t.size + others.length], a') ∧
      a'.Holds (t.expand g origin (.linear first others)).1 := by
  have hnodup := hformed.numbered.nodup
  have hlength := h.length_eq hformed.numbered
  obtain ⟨m, hm, -, hnode⟩ := hformed.exists_goal_node hg
  have hfilled := h.slot?_fillGoal first origin hnodup hnode
  obtain ⟨a₁, last, a₂, hchain, hgoal, hangs⟩ := pushChain_eq origin others hfilled rfl
  have hsize : (a.fillGoal g first origin).slots.length = t.size := by
    rw [fillGoal, length_update, hlength]
  rw [hsize] at hgoal hangs
  refine ⟨a₂, by simp only [Arena.expand, hchain, hgoal], of_expand hformed hnode ?_ ?_ ?_ ?_⟩
  · exact hangs.root_eq.trans h.root_eq
  · rw [hangs.length_eq, hsize, Tableau.size_stack]
    rfl
  · intro n hn
    rcases List.mem_cons.mp hn with rfl | hn
    · exact hangs.parent
    · exact hangs.new n hn
  · intro m' hm' hne
    have hlt := hformed.numbered.mem_ids_iff.mp (Tableau.mem_ids_of_mem_nodesFrom hm')
    rw [hangs.kept m'.id (hsize ▸ hlt) hne, fillGoal, slot?_update_of_ne _ hne,
      h.slot?_of_mem_nodes hnodup hm', Tableau.ofExpansion, Tableau.tops]
    exact congrArg _ (congrArg _ Node.adopt_singleton.symm)

theorem expand_branching {left right : Fragment} {origin : Origin} (h : a.Holds t)
    (hformed : t.WellFormed) (hg : ⟨g, .goal closing, above⟩ ∈ t.spots) :
    ∃ a', a.expand g (.branching left right) origin = (.ok [t.size + 1, t.size + 2], a') ∧
      a'.Holds (t.expand g origin (.branching left right)).1 := by
  have hnodup := hformed.numbered.nodup
  obtain ⟨m, hm, hchildren, hnode⟩ := hformed.exists_goal_node hg
  have hne : m.id ≠ g := Nat.ne_of_lt (hformed.parent_lt hnode rfl)
  obtain ⟨a', ha', hforks⟩ := expand_forks left right origin (h.slot?_of_mem_nodes hnodup hnode)
    rfl rfl (h.slot?_of_mem_nodes hnodup hm) hchildren hne
  obtain ⟨hroot, hlength, hparent, hleft, hright, hbelowLeft, hbelowRight, hkept⟩ := hforks
  rw [h.length_eq hformed.numbered] at ha' hlength hparent hleft hright hbelowLeft hbelowRight hkept
  refine ⟨a', ha', of_expand hformed hnode (hroot.trans h.root_eq) hlength (fun n hn => ?_)
    fun m' hm' hne' => ?_⟩
  · rcases List.mem_append.mp hn with hn | hn <;> rcases List.mem_cons.mp hn with rfl | hn
    · exact hleft
    · obtain rfl := List.mem_singleton.mp hn
      exact hbelowLeft
    · exact hright
    · obtain rfl := List.mem_singleton.mp hn
      exact hbelowRight
  · by_cases hid : m'.id = m.id
    · obtain rfl := Tableau.node_eq_of_id_eq hnodup hm' hm hid
      have hadopt : (m'.adopt g [g, t.size]).children = [g, t.size] := by
        simp [Node.adopt, hchildren]
      rw [hparent, ← hadopt]
      rfl
    · -- the goal is no child of another node
      have hnot : g ∉ m'.children := fun hmem => hid <|
        (Tableau.isChild_of_mem_children hm' hmem).parent_eq hnodup ⟨_, hnode, rfl, rfl⟩
      have hlt := hformed.numbered.mem_ids_iff.mp (Tableau.mem_ids_of_mem_nodesFrom hm')
      rw [hkept _ hlt hne' hid, h.slot?_of_mem_nodes hnodup hm', Node.adopt_of_not_mem hnot]

/-- Where a rule is applied, an arena goes on holding the tableau, and reports the same new
goals. -/
theorem expand (h : a.Holds t) (hformed : t.WellFormed)
    (hg : ⟨g, .goal closing, above⟩ ∈ t.spots) (origin : Origin) (expansion : Expansion) :
    ∃ a', a.expand g expansion.yield origin = (.ok (t.expand g origin expansion).2, a') ∧
      a'.Holds (t.expand g origin expansion).1 := by
  cases expansion with
  | linear first others =>
    have hgoals : (t.expand g origin (.linear first others)).2 = [t.size + others.length] :=
      Tableau.goals_stack origin t.size others
    rw [hgoals]
    exact h.expand_linear hformed hg
  | branching left right => exact h.expand_branching hformed hg

theorem start (signed : Signed) : (Arena.start signed).Holds (.start signed) := by
  refine of_mem_nodes (.start signed) rfl rfl fun n hn => ?_
  rcases List.mem_cons.mp hn with rfl | hn
  · rfl
  · obtain rfl := List.mem_singleton.mp hn
    rfl

end Holds

/-! ### Goals are closed -/

theorem length_closeGoals (goals : List NodeId) (σ : Substitution) :
    (a.closeGoals goals σ).slots.length = a.slots.length := by
  induction goals generalizing a with
  | nil => rfl
  | cons g goals ih => exact ih.trans (length_update _)

theorem root_closeGoals (goals : List NodeId) (σ : Substitution) :
    (a.closeGoals goals σ).root = a.root := by
  induction goals generalizing a with
  | nil => rfl
  | cons g goals ih => exact ih

/-- Just the slots of the goals change, and these in their marks only. -/
theorem slot?_closeGoals (goals : List NodeId) (σ : Substitution) (id : NodeId) :
    (a.closeGoals goals σ).slot? id =
      if id ∈ goals then
        (a.slot? id).map fun s => { s with isClosed := true, closing := some σ }
      else a.slot? id := by
  induction goals generalizing a with
  | nil => rfl
  | cons g goals ih =>
    rw [closeGoals, List.foldl_cons, ← closeGoals, ih]
    by_cases hid : id = g
    · subst hid
      rw [slot?_update_self, if_pos List.mem_cons_self, Option.map_map]
      split <;> rfl
    · rw [slot?_update_of_ne _ hid]
      simp [hid]

/-- Where goals are closed, an arena goes on holding the tableau. -/
theorem Holds.closeGoals {t : Tableau} (h : a.Holds t) (hformed : t.WellFormed) (k : NodeId)
    (σ : Substitution) : (a.closeGoals (t.openGoalsBelow k) σ).Holds (t.closeBelow k σ) := by
  have hnodup := hformed.numbered.nodup
  refine of_mem_nodes hformed.closeBelow.numbered ?_ ?_ fun n hn => ?_
  · obtain ⟨e, rest, rfl⟩ := Tableau.exists_step_of_rootEntry hformed.rooted
    rw [root_closeGoals, h.root_eq, Tableau.closeBelow]
    split <;> rfl
  · rw [length_closeGoals, h.length_eq hformed.numbered, Tableau.size, Tableau.size,
      Tableau.ids_closeBelow]
  · rw [Tableau.nodes_closeBelow hnodup, List.mem_map] at hn
    obtain ⟨m, hm, rfl⟩ := hn
    by_cases hmem : m.id ∈ t.openGoalsBelow k
    · obtain ⟨p, hp, hid, hcontent, -⟩ := Tableau.exists_spot_of_mem_nodes hm
      have hopen : m.content = .goal none :=
        hcontent ▸ ((Tableau.mem_openGoalsBelow_iff hnodup hp).mp (hid ▸ hmem)).1
      rw [if_pos hmem, slot?_closeGoals, Node.stamp, if_pos hmem, h.slot?_of_mem_nodes hnodup hm,
        Slot.ofNode_of_goal hopen]
      rfl
    · rw [if_neg hmem, slot?_closeGoals, if_neg hmem, h.slot?_of_mem_nodes hnodup hm]

end Arena

end SignedTableaux
