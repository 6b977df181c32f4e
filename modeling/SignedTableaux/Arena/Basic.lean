import SignedTableaux.Arena.Yield
import SignedTableaux.Tableau.Basic

/-!
# Tableaux in store

A tableau as it is kept while it grows: a list of slots, one for each node, where the number of a
node is its index. A slot holds its parent, its place among the children of its parent, and its
children, next to what the node says. Nothing but the operations keeps these links and marks in step
with each other. A slot is overwritten where a goal becomes a formula, and its children and marks
change where others are added or goals are closed.

## Main definitions

* `Slot`, `Arena` — a stored node, and the store
* `Arena.ancestors`, `Arena.descendants` — the walks up along parents and down along children
* `Arena.insertChild`, `Arena.fillGoal` — the two ways in which links change
* `Arena.expand`, `Arena.closeGoals` — the two ways in which an arena changes
* `Arena.check` — whether links and marks fit together
-/

namespace SignedTableaux

/-- A stored node. -/
structure Slot where
  sign : Sign
  /-- The formula; a goal has none. -/
  formula : Option Term
  children : List NodeId
  parent : Option NodeId
  /-- The index among the children of the parent. -/
  position : Nat
  isGoal : Bool
  isClosed : Bool
  /-- The substitution that closed the goal. -/
  closing : Option Substitution
  /-- The variable that the node introduces, if any. -/
  introduced : Option String
  /-- Where the node comes from; the root and goals come from nowhere. -/
  origin : Option Origin
deriving DecidableEq

namespace Slot

/-- A slot for a signed formula, without links. -/
def ofSigned (signed : Signed) : Slot where
  sign := signed.sign
  formula := some signed.formula
  children := []
  parent := none
  position := 0
  isGoal := false
  isClosed := false
  closing := none
  introduced := none
  origin := none

/-- A slot for an open goal, without links. -/
def goal : Slot where
  sign := .denied
  formula := none
  children := []
  parent := none
  position := 0
  isGoal := true
  isClosed := false
  closing := none
  introduced := none
  origin := none

/-- A slot for a fragment, without links. -/
def ofFragment (fragment : Fragment) (origin : Origin) : Slot :=
  { ofSigned fragment.signed with introduced := fragment.introduced, origin := some origin }

/-- Whether a slot is a goal that is not closed. -/
def isOpen (slot : Slot) : Bool :=
  slot.isGoal && !slot.isClosed

end Slot

/-- The slots of a tableau, and the number of its root. -/
structure Arena where
  slots : List Slot
  root : NodeId
deriving DecidableEq

namespace Arena

/-- The slot of a number. -/
def slot? (a : Arena) (id : NodeId) : Option Slot :=
  a.slots[id]?

/-- The slot of a number, which has to be in use. -/
def slot (a : Arena) (id : NodeId) : Except ProofError Slot :=
  orFail (a.slot? id) (.unknownNode id)

/-- The children of a node. -/
def children (a : Arena) (id : NodeId) : List NodeId :=
  ((a.slot? id).map Slot.children).getD []

/-! ### Walks -/

/-- The parent of a node. -/
def parent? (a : Arena) (id : NodeId) : Option NodeId :=
  (a.slot? id).bind Slot.parent

/-- The first `n` nodes on the way up from a node. -/
def climb (a : Arena) : Nat → NodeId → List NodeId
  | 0, _ => []
  | n + 1, id =>
    match a.parent? id with
    | none => []
    | some k => k :: a.climb n k

/-- The nodes above a node, nearest first. There are no more of them than there are slots. -/
def ancestors (a : Arena) (id : NodeId) : List NodeId :=
  a.climb a.slots.length id

/-- A node and those above it. -/
def branch (a : Arena) (id : NodeId) : List NodeId :=
  id :: a.ancestors id

/-- Whether `k` is above `id`. -/
def isAncestor (a : Arena) (k id : NodeId) : Bool :=
  k ∈ a.ancestors id

/-- The nodes found by taking `n` nodes from a stack, where the children of a node take its place. A
number that is not in use is passed over. -/
def visit (a : Arena) : Nat → List NodeId → List NodeId
  | 0, _ | _ + 1, [] => []
  | n + 1, id :: stack =>
    match a.slot? id with
    | none => a.visit n stack
    | some slot => id :: a.visit n (slot.children ++ stack)

/-- The nodes at and below a node, each before those below it, and left before right. There are no
more of them than there are slots. -/
def descendants (a : Arena) (id : NodeId) : List NodeId :=
  a.visit a.slots.length [id]

/-- The nearest node with a formula at or above a node. -/
def nearestFormula? (a : Arena) (id : NodeId) : Option NodeId :=
  (a.branch id).find? fun k => (a.slot? k).any (·.formula.isSome)

/-- The variables introduced at and above a node, nearest first. -/
def freeVars (a : Arena) (id : NodeId) : List String :=
  (a.branch id).filterMap fun k => (a.slot? k).bind Slot.introduced

/-- The nearest node that is at or above both `x` and `y`. -/
def commonAncestor? (a : Arena) (x y : NodeId) : Option NodeId :=
  (a.branch y).find? (· ∈ a.branch x)

/-- Whether some node between `goal` and `source` comes from `source`. -/
def isExpandedOn (a : Arena) (source goal : NodeId) : Bool :=
  ((a.ancestors goal).takeWhile (· ≠ source)).any fun k =>
    ((a.slot? k).bind Slot.origin).any (·.source = source)

/-- The goals, from left to right. -/
def goals (a : Arena) : List NodeId :=
  (a.descendants a.root).filter fun k => (a.slot? k).any Slot.isGoal

/-- The open goals at and below a node, from left to right. -/
def openGoalsBelow (a : Arena) (id : NodeId) : List NodeId :=
  (a.descendants id).filter fun k => (a.slot? k).any Slot.isOpen

/-- The open goals, from left to right. -/
def openGoals (a : Arena) : List NodeId :=
  a.openGoalsBelow a.root

/-- Whether every goal is closed. -/
def isClosed (a : Arena) : Bool :=
  a.openGoals.isEmpty

/-! ### Changes -/

/-- Changes the slot of a number. -/
def update (a : Arena) (id : NodeId) (f : Slot → Slot) : Arena :=
  { a with slots := a.slots.modify id f }

/-- Stores a slot under the next number. -/
def alloc (a : Arena) (slot : Slot) : Arena × NodeId :=
  (⟨a.slots ++ [slot], a.root⟩, a.slots.length)

/-- Stores a slot as a child of a node, at an index among its children; later children move up. -/
def insertChild (a : Arena) (parent : NodeId) (index : Nat) (slot : Slot) : Arena × NodeId :=
  let (a, id) := a.alloc { slot with parent := some parent, position := index }
  let a := a.update parent fun s => { s with children := s.children.insertIdx index id }
  let shifted := (a.children parent).drop (index + 1)
  (shifted.foldl (fun a k => a.update k fun s => { s with position := s.position + 1 }) a, id)

/-- Stores a slot as the last child of a node. -/
def pushChild (a : Arena) (parent : NodeId) (slot : Slot) : Arena × NodeId :=
  a.insertChild parent (a.children parent).length slot

/-- Stores a goal as the last child of a node. -/
def appendGoal (a : Arena) (parent : NodeId) : Arena × NodeId :=
  a.pushChild parent .goal

/-- Stores fragments one below the other, the first one as a child of `last`. -/
def pushChain (a : Arena) (last : NodeId) (origin : Origin) : List Fragment → Arena × NodeId
  | [] => (a, last)
  | fragment :: others =>
    let (a, id) := a.pushChild last (.ofFragment fragment origin)
    a.pushChain id origin others

/-- Overwrites a goal by a fragment; it keeps its parent and its place there. -/
def fillGoal (a : Arena) (goal : NodeId) (fragment : Fragment) (origin : Origin) : Arena :=
  a.update goal fun s =>
    { Slot.ofFragment fragment origin with parent := s.parent, position := s.position }

/-- The arena with one formula and one goal. -/
def start (signed : Signed) : Arena :=
  (appendGoal ⟨[.ofSigned signed], 0⟩ 0).1

/-- Puts what a rule yields in the place of a goal; the result lists the new goals. -/
def expand (a : Arena) (goal : NodeId) (yield : Yield) (origin : Origin) :
    Except ProofError (List NodeId) × Arena :=
  match yield with
  | .linear [] => (.error (.invariant (.noFragments origin.rule)), a)
  | .linear (first :: others) =>
    let a := a.fillGoal goal first origin
    let (a, last) := a.pushChain goal origin others
    let (a, new) := a.appendGoal last
    (.ok [new], a)
  | .branching left right =>
    match a.parent? goal with
    | none => (.error (.invariant (.orphanGoal goal)), a)
    | some parent =>
      let position := ((a.slot? goal).map Slot.position).getD 0
      let a := a.fillGoal goal left origin
      let (a, sibling) := a.insertChild parent (position + 1) (.ofFragment right origin)
      let (a, first) := a.appendGoal goal
      let (a, second) := a.appendGoal sibling
      (.ok [first, second], a)

/-- Marks goals as closed by a substitution. -/
def closeGoals (a : Arena) (goals : List NodeId) (σ : Substitution) : Arena :=
  goals.foldl (fun a g => a.update g fun s => { s with isClosed := true, closing := some σ }) a

/-! ### Checks -/

/-- Checks that a child names its parent, and its place there. -/
def checkChild (a : Arena) (id : NodeId) (child : NodeId) (index : Nat) :
    Except ProofError Unit := do
  let slot ← a.slot child
  require (slot.parent = some id ∧ slot.position = index)
    (.invariant (.fault (.misplaced child index id slot.parent slot.position)))

/-- Checks the children of a node and its marks. -/
def checkNode (a : Arena) (id : NodeId) : Except ProofError Unit := do
  let slot ← a.slot id
  slot.children.zipIdx.forM fun link => a.checkChild id link.1 link.2
  require (slot.formula = none → slot.isGoal ∧ slot.children = [])
    (.invariant (.fault (.bareNode id)))
  require (slot.formula ≠ none → ¬ slot.isGoal ∧ slot.children ≠ [])
    (.invariant (.fault (.formulaLeaf id)))
  require (slot.isClosed → slot.isGoal) (.invariant (.fault (.closedFormula id)))

/-- Checks that every node is found from the root, that the root has no parent, that children and
parents name each other, and that the leaves are the goals and have no formula. -/
def check (a : Arena) : Except ProofError Unit := do
  let found := a.descendants a.root
  require (found.length = a.slots.length)
    (.invariant (.fault (.unreachable found.length a.slots.length)))
  require (a.parent? a.root = none) (.invariant (.fault .rootHasParent))
  found.forM a.checkNode

end Arena

end SignedTableaux
