import SignedTableaux.Tableau.Node

/-!
# Outlines

A tableau as indented text: a line for each node, two spaces further in than its parent's.

## Main definitions

* `Tableau.outline` — the outline of a tableau
-/

namespace SignedTableaux.Tableau

/-- The line of a node at a depth. -/
def outlineLine (depth : Nat) (id : NodeId) (content : Content) : String :=
  String.ofList (List.replicate (2 * depth) ' ') ++ id.repr ++ ": " ++ content.label ++ "\n"

/-- The outline of a part of a tableau whose topmost nodes have `depth` nodes above them. -/
def outlineFrom (depth : Nat) : Tableau → String
  | .goal id closing => outlineLine depth id (.goal closing)
  | .step entry rest => outlineLine depth entry.id (.entry entry) ++ rest.outlineFrom (depth + 1)
  | .fork left right => left.outlineFrom depth ++ right.outlineFrom depth

/-- The outline of a tableau. -/
def outline (t : Tableau) : String :=
  t.outlineFrom 0

end SignedTableaux.Tableau
