import SignedTableaux.Proofs.Tableau.Entries
import SignedTableaux.Proofs.Tableau.Links

/-!
# Layout of what a rule adds

A rule adds one entry, or two of which the second is the only child of the first, or two that are
the children of one node. Entries that have children keep them, as a tableau grows at its goals
only. So what a rule has added stays as it was laid out.

## Main definitions

* `Tableau.HasChildren` — the children of a node, in order
* `Tableau.LaidOut` — the entries for the fragments of an expansion, and how they hang together

## Main results

* `Tableau.HasChildren.graft`, `Tableau.hasChildren_graft_parent` — children after growth
* `Tableau.hasChildren_closeBelow_iff` — children after closing
* `Tableau.LaidOut.graft`, `Tableau.LaidOut.closeBelow` — a layout stays
-/

namespace SignedTableaux.Tableau

variable {t sub : Tableau} {g k : NodeId} {cs : List NodeId}

/-- Whether a node has just these children, in this order. -/
def HasChildren (t : Tableau) (k : NodeId) (cs : List NodeId) : Prop :=
  ∃ node ∈ t.nodes, node.id = k ∧ node.children = cs

/-- The number of each node, with those of its children. -/
def childLists : Tableau → List (NodeId × List NodeId)
  | .goal id _ => [(id, [])]
  | .step entry rest => (entry.id, rest.tops) :: rest.childLists
  | .fork left right => left.childLists ++ right.childLists

theorem map_children_nodesFrom (t : Tableau) (parent : Option NodeId) (position : Nat) :
    (t.nodesFrom parent position).map (fun node => (node.id, node.children)) = t.childLists := by
  induction t generalizing parent position with
  | goal id closing => rfl
  | step e rest ih => simp [nodesFrom, childLists, ih]
  | fork left right ihl ihr => simp [nodesFrom, childLists, ihl, ihr]

theorem hasChildren_iff : t.HasChildren k cs ↔ (k, cs) ∈ t.childLists := by
  rw [← t.map_children_nodesFrom none 0, List.mem_map]
  simp [HasChildren, nodes]

/-! ### Growth -/

theorem tops_graft_of_not_mem (sub : Tableau) (h : g ∉ t.tops) : (t.graft g sub).tops = t.tops := by
  induction t with
  | goal id closing =>
    have hne : id ≠ g := fun heq => h (by simp [tops, heq])
    rw [graft, if_neg hne]
  | step e rest => rfl
  | fork left right ihl ihr =>
    rw [tops, List.mem_append, not_or] at h
    rw [graft, tops, tops, ihl h.1, ihr h.2]

/-- Children stay unless one of them is the goal that is replaced. -/
theorem HasChildren.graft (h : t.HasChildren k cs) (hcs : cs ≠ []) (hg : g ∉ cs) :
    (t.graft g sub).HasChildren k cs := by
  rw [hasChildren_iff] at h ⊢
  induction t with
  | goal id closing =>
    obtain ⟨-, rfl⟩ : k = id ∧ cs = [] := by simpa [childLists] using h
    exact absurd rfl hcs
  | step e rest ih =>
    rcases List.mem_cons.mp h with heq | h
    · obtain ⟨rfl, rfl⟩ := Prod.mk.inj heq
      rw [← tops_graft_of_not_mem sub hg]
      exact List.mem_cons_self
    · exact List.mem_cons_of_mem _ (ih h)
  | fork left right ihl ihr =>
    exact List.mem_append.mpr ((List.mem_append.mp h).imp ihl ihr)

/-- The nodes of what takes the place of a goal keep their children. -/
theorem hasChildren_graft_of_goal (hg : g ∈ t.goals) (h : sub.HasChildren k cs) :
    (t.graft g sub).HasChildren k cs := by
  rw [hasChildren_iff] at h ⊢
  induction t with
  | goal id closing =>
    rw [Tableau.graft, if_pos (List.mem_singleton.mp hg).symm]
    exact h
  | step e rest ih => exact List.mem_cons_of_mem _ (ih hg)
  | fork left right ihl ihr =>
    exact List.mem_append.mpr ((List.mem_append.mp hg).imp ihl ihr)

/-- The entry above a goal has as its children the topmost nodes of what takes the place of the
goal. -/
theorem hasChildren_graft_parent (sub : Tableau) {closing : Option Substitution} {e : Entry}
    {upper : List Entry} (hshaped : t.Shaped)
    (hg : ⟨g, .goal closing, e :: upper⟩ ∈ t.spots) :
    (t.graft g sub).HasChildren e.id sub.tops := by
  rw [hasChildren_iff]
  -- below entries `outer` the goal is all there is, or its parent is in this part
  suffices hgen : ∀ (t : Tableau) (outer : List Entry), t.Shaped →
      ⟨g, .goal closing, e :: upper⟩ ∈ t.spotsFrom outer →
        t = .goal g closing ∧ e :: upper = outer ∨
          (e.id, sub.tops) ∈ (t.graft g sub).childLists by
    rcases hgen t [] hshaped hg with ⟨-, hnil⟩ | hmem
    · cases hnil
    · exact hmem
  intro t
  induction t with
  | goal id closing' =>
    intro outer _ h
    obtain ⟨rfl, rfl, rfl⟩ : g = id ∧ closing = closing' ∧ e :: upper = outer := by
      simpa [spotsFrom] using h
    exact .inl ⟨rfl, rfl⟩
  | step e' rest ih =>
    intro outer hshaped h
    have h : ⟨g, .goal closing, e :: upper⟩ ∈ rest.spotsFrom (e' :: outer) := by
      simpa [spotsFrom] using h
    rcases ih _ hshaped h with ⟨rfl, heq⟩ | hmem
    · obtain ⟨rfl, -⟩ := List.cons.inj heq
      simp [Tableau.graft, childLists]
    · exact .inr (List.mem_cons_of_mem _ hmem)
  | fork left right ihl ihr =>
    rintro outer ⟨hl, hr, hleft, hright⟩ h
    rcases List.mem_append.mp h with h | h
    · rcases ihl outer hl h with ⟨rfl, -⟩ | hmem
      · cases hleft
      · exact .inr (List.mem_append_left _ hmem)
    · rcases ihr outer hr h with ⟨rfl, -⟩ | hmem
      · cases hright
      · exact .inr (List.mem_append_right _ hmem)

/-! ### Closing -/

theorem tops_reopen (t : Tableau) : t.reopen.tops = t.tops := by
  induction t with
  | goal id closing => rfl
  | step e rest => rfl
  | fork left right ihl ihr => exact congrArg₂ (· ++ ·) ihl ihr

theorem childLists_reopen (t : Tableau) : t.reopen.childLists = t.childLists := by
  induction t with
  | goal id closing => rfl
  | step e rest ih => rw [reopen, childLists, childLists, tops_reopen, ih]
  | fork left right ihl ihr => exact congrArg₂ (· ++ ·) ihl ihr

theorem hasChildren_closeBelow_iff {id : NodeId} {σ : Substitution} :
    (t.closeBelow id σ).HasChildren k cs ↔ t.HasChildren k cs := by
  rw [hasChildren_iff, hasChildren_iff, ← childLists_reopen, reopen_closeBelow, childLists_reopen]

/-! ### Layouts -/

/-- The entries for the fragments of an expansion, as a rule lays them out. -/
inductive LaidOut (t : Tableau) (origin : Origin) : Expansion → List Entry → Prop
  /-- One entry. -/
  | single {e : Entry} {fragment : Fragment} (he : e = entryOf e.id origin fragment) :
    LaidOut t origin (.linear fragment []) [e]
  /-- Two entries, of which the second is the only child of the first. -/
  | stacked {a b : Entry} {first second : Fragment} (hrule : origin.rule = .alpha)
    (ha : a = entryOf a.id origin first) (hb : b = entryOf b.id origin second)
    (hchild : t.HasChildren a.id [b.id]) : LaidOut t origin (.linear first [second]) [a, b]
  /-- Two entries that are the children of one node. -/
  | forked {a b : Entry} {left right : Fragment} {parent : NodeId} (hrule : origin.rule = .beta)
    (ha : a = entryOf a.id origin left) (hb : b = entryOf b.id origin right)
    (hchildren : t.HasChildren parent [a.id, b.id]) :
    LaidOut t origin (.branching left right) [a, b]

namespace LaidOut

variable {origin : Origin} {expansion : Expansion} {es : List Entry}

/-- A layout stays where the children of entries stay. -/
theorem mono {t' : Tableau} (h : t.LaidOut origin expansion es)
    (hchildren : ∀ k cs, cs ≠ [] → (∀ c ∈ cs, ∃ e ∈ es, e.id = c) → t.HasChildren k cs →
      t'.HasChildren k cs) : t'.LaidOut origin expansion es := by
  cases h with
  | single he => exact .single he
  | stacked hrule ha hb hchild =>
    exact .stacked hrule ha hb (hchildren _ _ (by simp) (by simp) hchild)
  | forked hrule ha hb hchildren' =>
    exact .forked hrule ha hb (hchildren _ _ (by simp) (by simp) hchildren')

theorem graft (h : t.LaidOut origin expansion es) (hnodup : t.ids.Nodup) (hg : g ∈ t.goals)
    (hes : ∀ e ∈ es, e ∈ t.entries) : (t.graft g sub).LaidOut origin expansion es := by
  refine h.mono fun k cs hcs hentries hk => hk.graft hcs fun hmem => ?_
  obtain ⟨e, he, hid⟩ := hentries g hmem
  exact id_ne_of_mem_entries hnodup hg (hes e he) hid

theorem closeBelow {id : NodeId} {σ : Substitution} (h : t.LaidOut origin expansion es) :
    (t.closeBelow id σ).LaidOut origin expansion es :=
  h.mono fun _ _ _ _ => hasChildren_closeBelow_iff.mpr

end LaidOut

end SignedTableaux.Tableau
