import SignedTableaux.Tableau.Node

/-!
# Graphs

A tableau in the Graphviz language: a statement for each node, then one for each edge. Formulas
are boxes; goals are ellipses, grey while open and green once closed. An edge to a node that
comes from a rule tells the rule and its source.

## Main definitions

* `Graph.quote` — a label between quotes
* `Tableau.graph` — the graph of a tableau
-/

namespace SignedTableaux

namespace Graph

/-- What stands for a character inside a quoted label. -/
def escape (c : Char) : List Char :=
  match c with
  | '\\' => ['\\', '\\']
  | '"' => ['\\', '"']
  | '\n' => ['\\', 'n']
  | c => [c]

/-- A label between quotes. -/
def quote (label : String) : String :=
  "\"" ++ String.ofList (label.toList.flatMap escape) ++ "\""

/-- The style of a node beside its label: a box by default, an ellipse for a goal. -/
def style : Content → String
  | .entry _ => ""
  | .goal closing =>
    ", shape=ellipse, style=filled, fillcolor=" ++
      if closing.isSome then "lightgreen" else "lightgrey"

/-- The statement of a node. -/
def nodeStatement (node : Node) : String :=
  "  n" ++ node.id.repr ++ " [label=" ++ quote (node.id.repr ++ ": " ++ node.label) ++
    style node.content ++ "];\n"

/-- The statement of an edge, with the origin of the node below it. -/
def edgeStatement (parent child : NodeId) (origin : Option Origin) : String :=
  "  n" ++ parent.repr ++ " -> n" ++ child.repr ++
    (match origin with
    | some origin =>
      " [label=" ++ quote (origin.rule.name ++ " (" ++ origin.source.repr ++ ")") ++ "]"
    | none => "") ++
    ";\n"

end Graph

namespace Tableau

/-- The rule and the source that a node comes from. -/
def originOf (t : Tableau) (id : NodeId) : Option Origin :=
  ((t.node? id).bind Node.asEntry).bind Entry.origin

/-- The statements of the edges from a node to its children. -/
def edgesFrom (t : Tableau) (node : Node) : String :=
  String.join (node.children.map fun child =>
    Graph.edgeStatement node.id child (t.originOf child))

/-- The graph of a tableau. -/
def graph (t : Tableau) : String :=
  "digraph Tableau \x7b\n  node [shape=box];\n" ++ String.join (t.nodes.map Graph.nodeStatement) ++
    String.join (t.nodes.map t.edgesFrom) ++ "\x7d\n"

end Tableau

end SignedTableaux
