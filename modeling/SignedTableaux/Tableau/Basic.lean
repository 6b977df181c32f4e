import SignedTableaux.Tableau.Expansion

/-!
# Tableaux

A tableau is a tree that grows downwards at its leaves, the goals. On the way from the root to a
goal stand signed formulas; where the way splits, the goals of either side belong to different
branches.

Nodes carry numbers: the root is `0`, and every new node takes the number of nodes there were. A
rule applied at a goal puts its first fragment in the place of the goal, which keeps its number.

## Main definitions

* `Entry`, `Tableau` — a signed formula in the tree, and the tree
* `Tableau.start` — a root and one goal
* `Tableau.ids`, `Tableau.goals`, `Tableau.openGoals` — node numbers from top to bottom, left to
  right
* `Tableau.lineage?`, `Tableau.branch?` — the entries above a node, and with its own, nearest
  first
* `Tableau.subtree?` — what stands at and below a node
* `Tableau.expand`, `Tableau.closeBelow` — the two ways a tableau changes
-/

namespace SignedTableaux

/-- The rule and the node that an entry comes from. -/
structure Origin where
  rule : Rule
  source : NodeId
deriving DecidableEq

/-- A node with a signed formula. -/
structure Entry where
  id : NodeId
  signed : Signed
  /-- The variable that the entry introduces, if any. -/
  introduced : Option String
  /-- Where the entry comes from; the root comes from nowhere. -/
  origin : Option Origin
deriving DecidableEq

/-- A tableau, or a part of one from some node down. -/
inductive Tableau where
  /-- A leaf where the tableau may grow, until it is closed by a substitution. -/
  | goal (id : NodeId) (closing : Option Substitution)
  /-- An entry, and what stands below it. -/
  | step (entry : Entry) (rest : Tableau)
  /-- Two alternatives, side by side. -/
  | fork (left right : Tableau)
deriving DecidableEq

namespace Tableau

/-- The tableau with one entry and one goal. -/
def start (signed : Signed) : Tableau :=
  .step ⟨0, signed, none, none⟩ (.goal 1 none)

/-! ### Walks from the top -/

/-- The numbers of all nodes, each before those below it, and left before right. -/
def ids : Tableau → List NodeId
  | .goal id _ => [id]
  | .step entry rest => entry.id :: rest.ids
  | .fork left right => left.ids ++ right.ids

/-- The number of nodes. -/
def size (t : Tableau) : Nat :=
  t.ids.length

/-- The numbers of the topmost nodes. -/
def tops : Tableau → List NodeId
  | .goal id _ => [id]
  | .step entry _ => [entry.id]
  | .fork left right => left.tops ++ right.tops

/-- The number of the root. -/
def root : Tableau → NodeId
  | .goal id _ => id
  | .step entry _ => entry.id
  | .fork left _ => left.root

/-- The entry at the root. -/
def rootEntry : Tableau → Option Entry
  | .step entry _ => some entry
  | _ => none

/-- The goals, from left to right. -/
def goals : Tableau → List NodeId
  | .goal id _ => [id]
  | .step _ rest => rest.goals
  | .fork left right => left.goals ++ right.goals

/-- The goals that are not closed, from left to right. -/
def openGoals : Tableau → List NodeId
  | .goal id none => [id]
  | .goal _ (some _) => []
  | .step _ rest => rest.openGoals
  | .fork left right => left.openGoals ++ right.openGoals

/-- Whether every goal is closed. -/
def isClosed (t : Tableau) : Bool :=
  t.openGoals.isEmpty

/-- What stands at and below a node. -/
def subtree? (id : NodeId) : Tableau → Option Tableau
  | .goal id' closing => if id' = id then some (.goal id' closing) else none
  | .step entry rest => if entry.id = id then some (.step entry rest) else rest.subtree? id
  | .fork left right => (left.subtree? id).or (right.subtree? id)

/-- The numbers at and below a node, or none if there is no such node. -/
def descendants (t : Tableau) (id : NodeId) : List NodeId :=
  ((t.subtree? id).map ids).getD []

/-- The open goals at and below a node. -/
def openGoalsBelow (t : Tableau) (id : NodeId) : List NodeId :=
  ((t.subtree? id).map openGoals).getD []

/-! ### Walks from a node to the root -/

/-- The entries above a node, nearest first, if there is such a node. -/
def lineage? (id : NodeId) : Tableau → Option (List Entry)
  | .goal id' _ => if id' = id then some [] else none
  | .step entry rest =>
    if entry.id = id then some [] else (rest.lineage? id).map (· ++ [entry])
  | .fork left right => (left.lineage? id).or (right.lineage? id)

/-- The entries at and above a node, nearest first, if there is such a node. -/
def branch? (id : NodeId) : Tableau → Option (List Entry)
  | .goal id' _ => if id' = id then some [] else none
  | .step entry rest =>
    if entry.id = id then some [entry] else (rest.branch? id).map (· ++ [entry])
  | .fork left right => (left.branch? id).or (right.branch? id)

/-- The numbers of the nodes above a node, nearest first. -/
def ancestors (t : Tableau) (id : NodeId) : List NodeId :=
  ((t.lineage? id).getD []).map Entry.id

/-- Whether `a` is above `b`. -/
def isAncestor (t : Tableau) (a b : NodeId) : Bool :=
  a ∈ t.ancestors b

/-- The entry at a node or, if it is a goal, the nearest one above. -/
def nearest? (t : Tableau) (id : NodeId) : Option Entry :=
  (t.branch? id).bind List.head?

/-- The variables introduced at and above a node, nearest first. -/
def freeVars (t : Tableau) (id : NodeId) : List String :=
  ((t.branch? id).getD []).filterMap Entry.introduced

/-- The nearest node that is at or above both `a` and `b`. -/
def commonAncestor? (t : Tableau) (a b : NodeId) : Option NodeId :=
  (b :: t.ancestors b).find? (· ∈ a :: t.ancestors a)

/-- Whether some entry between `goal` and `source` comes from `source`. -/
def isExpandedOn (t : Tableau) (source goal : NodeId) : Bool :=
  (((t.lineage? goal).getD []).takeWhile (·.id ≠ source)).any fun entry =>
    entry.origin.any (·.source = source)

/-! ### Growing and closing -/

/-- Puts `sub` in the place of a goal. -/
def graft (t : Tableau) (goal : NodeId) (sub : Tableau) : Tableau :=
  match t with
  | .goal id closing => if id = goal then sub else .goal id closing
  | .step entry rest => .step entry (rest.graft goal sub)
  | .fork left right => .fork (left.graft goal sub) (right.graft goal sub)

/-- The entry of a fragment. -/
def entryOf (id : NodeId) (origin : Origin) (fragment : Fragment) : Entry :=
  ⟨id, fragment.signed, fragment.introduced, some origin⟩

/-- Fragments one below the other, and a goal, numbered from `next` on. -/
def stack (origin : Origin) (next : NodeId) : List Fragment → Tableau
  | [] => .goal next none
  | fragment :: others =>
    .step (entryOf next origin fragment) (stack origin (next + 1) others)

/-- What an expansion puts in the place of a goal. The first fragment takes over the number of the
goal; all others are numbered from `next` on, the entries before the goals. -/
def ofExpansion (goal next : NodeId) (origin : Origin) : Expansion → Tableau
  | .linear first others => .step (entryOf goal origin first) (stack origin next others)
  | .branching left right =>
    .fork (.step (entryOf goal origin left) (.goal (next + 1) none))
      (.step (entryOf next origin right) (.goal (next + 2) none))

/-- The tableau after an expansion at a goal, and the new goals. -/
def expand (t : Tableau) (goal : NodeId) (origin : Origin) (expansion : Expansion) :
    Tableau × List NodeId :=
  let sub := ofExpansion goal t.size origin expansion
  (t.graft goal sub, sub.goals)

/-- Closes every open goal. -/
def close (σ : Substitution) : Tableau → Tableau
  | .goal id none => .goal id (some σ)
  | .goal id (some τ) => .goal id (some τ)
  | .step entry rest => .step entry (rest.close σ)
  | .fork left right => .fork (left.close σ) (right.close σ)

/-- Closes every open goal at and below a node. -/
def closeBelow (id : NodeId) (σ : Substitution) : Tableau → Tableau
  | .goal id' closing =>
    if id' = id then close σ (.goal id' closing) else .goal id' closing
  | .step entry rest =>
    if entry.id = id then .step entry (rest.close σ) else .step entry (rest.closeBelow id σ)
  | .fork left right => .fork (left.closeBelow id σ) (right.closeBelow id σ)

end Tableau

end SignedTableaux
