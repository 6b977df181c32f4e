import SignedTableaux.Proofs.Tableau.Walks
import SignedTableaux.Tableau.Outline

/-!
# Lines of an outline

An outline is written by a walk down. With each node on its stack the walk keeps how far in the line
of the node stands, and the children of a node stand one step further in. It does not look at
parents; that a line stands as far in as there are nodes above its node is due to the links.

## Main definitions

* `Tableau.Prints` — the walk that writes lines, step by step along child lists
* `Tableau.IsOutline` — what an outline consists of

## Main results

* `Tableau.prints_tops` — what is left to write for the nodes on the stack
* `Tableau.outlineFrom_eq` — depths that are carried along count the entries above
* `Tableau.WellFormed.isOutline` — the outline of a well-formed tableau
-/

namespace SignedTableaux.Tableau

variable {t sub : Tableau}

/-! ### The walk -/

/-- The walk that writes an outline, with the nodes that are still to be written and their depths on
a stack: the children of a node take its place, one step deeper. -/
inductive Prints (t : Tableau) : (stack : List (NodeId × Nat)) → (text : String) → Prop
  | done : t.Prints [] ""
  | line {n : Node} {depth : Nat} {stack : List (NodeId × Nat)} {text : String} (hn : n ∈ t.nodes)
      (hrest : t.Prints (n.children.map (·, depth + 1) ++ stack) text) :
      t.Prints ((n.id, depth) :: stack) (outlineLine depth n.id n.content ++ text)

/-- From the topmost nodes of a part of the tableau, the walk writes the outline of the part, and
goes on with the rest of the stack. -/
theorem prints_tops {parent : Option NodeId} {position depth : Nat} {stack : List (NodeId × Nat)}
    {text : String} (hsub : ∀ n ∈ sub.nodesFrom parent position, n ∈ t.nodes)
    (h : t.Prints stack text) :
    t.Prints (sub.tops.map (·, depth) ++ stack) (sub.outlineFrom depth ++ text) := by
  induction sub generalizing parent position depth stack text with
  | goal id closing =>
    have hgoal := hsub _ (List.mem_singleton.mpr rfl)
    exact .line hgoal h
  | step e rest ih =>
    obtain ⟨hentry, hrest⟩ := List.forall_mem_cons.mp hsub
    rw [outlineFrom, String.append_assoc]
    exact .line hentry (ih hrest h)
  | fork left right ihl ihr =>
    obtain ⟨hl, hr⟩ := List.forall_mem_append.mp hsub
    rw [tops, List.map_append, List.append_assoc, outlineFrom, String.append_assoc]
    exact ihl hl (ihr hr h)

theorem prints_outline (t : Tableau) : t.Prints (t.tops.map (·, 0)) t.outline := by
  have hprints : t.Prints (t.tops.map (·, 0) ++ []) (t.outlineFrom 0 ++ "") :=
    prints_tops (fun _ hn => hn) .done
  rwa [List.append_nil, String.append_empty] at hprints

/-! ### Depths -/

/-- The depth that is carried along is the number of entries above. -/
theorem outlineFrom_eq (t : Tableau) (above : List Entry) :
    t.outlineFrom above.length =
      String.join ((t.spotsFrom above).map fun p => outlineLine p.above.length p.id p.content) := by
  induction t generalizing above with
  | goal id closing =>
    rw [outlineFrom, spotsFrom, List.map_singleton, String.join_cons, String.join_nil,
      String.append_empty]
  | step e rest ih =>
    have hrest := ih (e :: above)
    rw [List.length_cons] at hrest
    rw [outlineFrom, spotsFrom, List.map_cons, String.join_cons, hrest]
  | fork left right ihl ihr =>
    rw [outlineFrom, spotsFrom, List.map_append, String.join_append, ihl, ihr]

/-- Nodes and spots hold the same, in the same order. -/
theorem map_nodes_eq_map_spots {α : Type} (f : NodeId → Content → α) :
    t.nodes.map (fun n => f n.id n.content) = t.spots.map fun p => f p.id p.content := by
  have hmap :=
    congrArg (List.map fun x : NodeId × Content × Option NodeId => f x.1 x.2.1) t.map_nodes
  rwa [List.map_map, List.map_map] at hmap

theorem outline_eq (hnodup : t.ids.Nodup) :
    t.outline =
      String.join (t.nodes.map fun n => outlineLine (t.ancestors n.id).length n.id n.content) := by
  have hlines : t.spots.map (fun p => outlineLine p.above.length p.id p.content) =
      t.spots.map fun p => outlineLine (t.ancestors p.id).length p.id p.content := by
    refine List.map_congr_left fun p hp => ?_
    rw [ancestors_of_mem_spots hnodup hp, List.length_map]
  rw [map_nodes_eq_map_spots fun id content => outlineLine (t.ancestors id).length id content,
    ← hlines]
  exact t.outlineFrom_eq []

/-- A line starts with two spaces for each step of its depth. -/
theorem outlineLine_eq (depth : Nat) (id : NodeId) (content : Content) :
    outlineLine depth id content =
      String.join (List.replicate depth "  ") ++ id.repr ++ ": " ++ content.label ++ "\n" := by
  have hspaces : String.ofList (List.replicate (2 * depth) ' ') =
      String.join (List.replicate depth "  ") := by
    rw [String.ext_iff, String.toList_ofList, String.toList_join]
    induction depth with
    | zero => rfl
    | succ depth ih =>
      rw [List.replicate_succ, List.flatMap_cons, ← ih]
      rfl
  rw [outlineLine, hspaces]

/-! ### Outlines -/

/-- Whether a text is the outline of a tableau: a line for each node in the order of the walk down,
indented by two spaces for each node above. -/
structure IsOutline (t : Tableau) (text : String) : Prop where
  /-- The walk with depths on its stack writes the text. -/
  printed : t.Prints [(t.root, 0)] text
  text_eq : text = String.join (t.nodes.map fun n =>
    String.join (List.replicate (t.ancestors n.id).length "  ") ++ n.id.repr ++ ": " ++
      n.label ++ "\n")
  /-- The lines are in the order of the walk down from the root. -/
  map_id_nodes : t.nodes.map Node.id = t.descendants t.root
  /-- No node has two lines. -/
  nodup : (t.descendants t.root).Nodup
  /-- Every node has a line. -/
  mem_iff : ∀ id, id ∈ t.descendants t.root ↔ id < t.size

theorem WellFormed.isOutline (h : t.WellFormed) : t.IsOutline t.outline where
  printed := by
    have hprints := t.prints_outline
    rwa [h.tops_eq] at hprints
  text_eq := by
    rw [outline_eq h.numbered.nodup]
    exact congrArg String.join (List.map_congr_left fun n _ => outlineLine_eq _ n.id n.content)
  map_id_nodes := h.map_id_nodes_eq_descendants
  nodup := h.nodup_descendants_root
  mem_iff _ := by rw [h.descendants_root, h.numbered.mem_ids_iff]

end SignedTableaux.Tableau
