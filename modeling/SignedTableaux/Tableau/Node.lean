import SignedTableaux.Tableau.Basic

/-!
# Nodes of a tableau

A node seen by itself: what it holds and how it is linked to its neighbours.

## Main definitions

* `Content`, `Node` — an entry or a goal, with its parent, its place among siblings, its
  children
* `Tableau.nodes`, `Tableau.node?` — all nodes from the top, and the node of a number
-/

namespace SignedTableaux

/-- What a node holds. -/
inductive Content where
  | entry (entry : Entry)
  | goal (closing : Option Substitution)
deriving DecidableEq

/-- The label of a node: its signed formula, or the state of the goal. -/
def Content.label : Content → String
  | .entry e => e.signed.render
  | .goal none => "open goal"
  | .goal (some σ) => if σ = ∅ then "closed" else "closed by \x7b" ++ σ.render ++ "\x7d"

/-- A node of a tableau. -/
structure Node where
  id : NodeId
  content : Content
  parent : Option NodeId
  /-- The index among the children of the parent. -/
  position : Nat
  children : List NodeId
deriving DecidableEq

namespace Node

/-- The entry at a node, unless it is a goal. -/
def asEntry (node : Node) : Option Entry :=
  match node.content with
  | .entry entry => some entry
  | .goal _ => none

/-- Whether a node is a goal. -/
def isGoal (node : Node) : Bool :=
  node.asEntry.isNone

/-- The substitution that closed a goal. -/
def closing? (node : Node) : Option Substitution :=
  match node.content with
  | .entry _ => none
  | .goal closing => closing

/-- Whether a node is a goal that is closed. -/
def isClosed (node : Node) : Bool :=
  node.closing?.isSome

/-- The sign of a node; a goal counts as denied. -/
def sign (node : Node) : Sign :=
  (node.asEntry.map (·.signed.sign)).getD .denied

/-- The label of a node. -/
def label (node : Node) : String :=
  node.content.label

end Node

namespace Tableau

/-- The nodes from the top, where the topmost ones have the given parent and stand among its
children from `position` on. -/
def nodesFrom (parent : Option NodeId) (position : Nat) : Tableau → List Node
  | .goal id closing => [⟨id, .goal closing, parent, position, []⟩]
  | .step entry rest =>
    ⟨entry.id, .entry entry, parent, position, rest.tops⟩ :: rest.nodesFrom (some entry.id) 0
  | .fork left right =>
    left.nodesFrom parent position ++ right.nodesFrom parent (position + left.tops.length)

/-- All nodes, each before those below it, and left before right. -/
def nodes (t : Tableau) : List Node :=
  t.nodesFrom none 0

/-- The node of a number. -/
def node? (t : Tableau) (id : NodeId) : Option Node :=
  t.nodes.find? (·.id = id)

end Tableau

end SignedTableaux
