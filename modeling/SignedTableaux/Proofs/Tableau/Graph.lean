import SignedTableaux.Proofs.Tableau.Walks
import SignedTableaux.Tableau.Graph

/-!
# Statements of a graph

Names may hold any characters, so a label is escaped before it is put between quotes. A reader that
goes from the opening quote to the first quote without a backslash before it that escapes it ends
where the label ends, and finds the label. The edges go along child lists; that they lead to every
node but the root, and once, is due to the links.

## Main definitions

* `Graph.escaped` — a label with backslashes, quotes and line feeds replaced, in this order
* `Graph.readQuoted` — reads a label up to its closing quote
* `Tableau.IsGraph` — what a graph consists of

## Main results

* `Graph.flatMap_escape` — three replacements escape each character once
* `Graph.readQuoted_escaped` — what is escaped is read back, up to the quote after it
* `Tableau.WellFormed.isGraph` — the graph of a well-formed tableau
-/

namespace SignedTableaux

namespace Graph

/-! ### Quoted labels -/

/-- A text with every occurrence of a character replaced. -/
def replaced (c : Char) (new text : List Char) : List Char :=
  text.flatMap fun d => if d = c then new else [d]

/-- A label as it stands between quotes. Backslashes come first, so that those of the other
replacements are not replaced themselves. -/
def escaped (label : List Char) : List Char :=
  replaced '\n' ['\\', 'n'] (replaced '"' ['\\', '"'] (replaced '\\' ['\\', '\\'] label))

/-- The three replacements do to each character what `escape` does. -/
theorem flatMap_escape (label : List Char) : label.flatMap escape = escaped label := by
  simp only [escaped, replaced, List.flatMap_assoc]
  congr 1
  funext c
  unfold escape
  split
  · rfl
  · rfl
  · rfl
  · next hbackslash hquote hfeed =>
    rw [if_neg hbackslash, List.flatMap_singleton, if_neg hquote, List.flatMap_singleton,
      if_neg hfeed]

/-- The character that one after a backslash stands for. -/
def unescape : Char → Option Char
  | '\\' => some '\\'
  | '"' => some '"'
  | 'n' => some '\n'
  | _ => none

/-- Reads a label from behind its opening quote up to the first quote that is not escaped, and gives
what comes after that quote as well. -/
def readQuoted : List Char → Option (List Char × List Char)
  | [] => none
  | '"' :: rest => some ([], rest)
  | '\\' :: c :: rest => do
    let d ← unescape c
    let (label, rest) ← readQuoted rest
    return (d :: label, rest)
  | c :: rest => do
    let (label, rest) ← readQuoted rest
    return (c :: label, rest)

/-- Whether a character stands for itself inside quotes. -/
def IsPlain (c : Char) : Prop :=
  c ≠ '\\' ∧ c ≠ '"' ∧ c ≠ '\n'

/-- A character stands for itself, or a backslash and another character stand for it. -/
theorem escape_cases (c : Char) :
    (IsPlain c ∧ escape c = [c]) ∨ ∃ d, unescape d = some c ∧ escape c = ['\\', d] := by
  unfold escape
  split
  · exact .inr ⟨'\\', rfl, rfl⟩
  · exact .inr ⟨'"', rfl, rfl⟩
  · exact .inr ⟨'n', rfl, rfl⟩
  · next hbackslash hquote hfeed => exact .inl ⟨⟨hbackslash, hquote, hfeed⟩, rfl⟩

theorem escape_of_isPlain {c : Char} (h : IsPlain c) : escape c = [c] := by
  obtain ⟨hbackslash, hquote, hfeed⟩ := h
  unfold escape
  split
  · exact absurd rfl hbackslash
  · exact absurd rfl hquote
  · exact absurd rfl hfeed
  · rfl

/-- What stands for a character is read as that character. -/
theorem readQuoted_escape_append {c : Char} {text label rest : List Char}
    (h : readQuoted text = some (label, rest)) :
    readQuoted (escape c ++ text) = some (c :: label, rest) := by
  rcases escape_cases c with ⟨⟨hbackslash, hquote, -⟩, hself⟩ | ⟨d, hd, hpair⟩
  · rw [hself, List.singleton_append]
    simp [readQuoted, hbackslash, h]
  · rw [hpair]
    simp [readQuoted, hd, h]

/-- An escaped label is read back, and reading ends at the quote after it. -/
theorem readQuoted_escaped (label rest : List Char) :
    readQuoted (escaped label ++ '"' :: rest) = some (label, rest) := by
  rw [← flatMap_escape]
  induction label with
  | nil => rfl
  | cons c label ih =>
    rw [List.flatMap_cons, List.append_assoc]
    exact readQuoted_escape_append ih

-- an escaped backslash before the closing quote does not escape it
example : escaped "\\\"\n\\".toList = "\\\\\\\"\\n\\\\".toList ∧
    readQuoted "\\\\\\\"\\n\\\\\", style=\"".toList =
      some ("\\\"\n\\".toList, ", style=\"".toList) := by
  decide

theorem quote_of_isPlain {label : String} (h : ∀ c ∈ label.toList, IsPlain c) :
    quote label = "\"" ++ label ++ "\"" := by
  have hself : label.toList.flatMap escape = label.toList := by
    rw [List.flatMap_congr fun c hc => escape_of_isPlain (h c hc), List.flatMap_singleton']
  rw [quote, hself, String.ofList_toList]

/-! ### Edges -/

/-- What an edge tells about the origin of its lower end. -/
def originLabel : Option Origin → String
  | none => ""
  | some origin =>
    " [label=" ++ "\"" ++ origin.rule.name ++ " (" ++ origin.source.repr ++ ")" ++ "\"" ++ "]"

theorem isPlain_of_mem_repr {n : Nat} {c : Char} (h : c ∈ n.repr.toList) : IsPlain c := by
  rw [Nat.toList_repr] at h
  have hdigit := Nat.isDigit_of_mem_toDigits (by decide) (by decide) h
  refine ⟨?_, ?_, ?_⟩ <;> rintro rfl <;> exact absurd hdigit (by decide)

theorem isPlain_of_mem_name {rule : Rule} {c : Char} (h : c ∈ rule.name.toList) : IsPlain c := by
  cases rule <;> simp [Rule.name] at h <;> grind [IsPlain]

theorem nodeStatement_eq (n : Node) :
    nodeStatement n =
      "  n" ++ n.id.repr ++ " [label=" ++ "\"" ++
        String.ofList (escaped (n.id.repr ++ ": " ++ n.label).toList) ++
        "\"" ++ style n.content ++ "];\n" := by
  simp only [nodeStatement, quote, flatMap_escape, String.append_assoc]

/-- In the label of an edge there is nothing to escape. -/
theorem edgeStatement_eq (parent child : NodeId) (origin : Option Origin) :
    edgeStatement parent child origin =
      "  n" ++ parent.repr ++ " -> n" ++ child.repr ++ originLabel origin ++ ";\n" := by
  cases origin with
  | none => rfl
  | some origin =>
    have hplain : ∀ c ∈ (origin.rule.name ++ " (" ++ origin.source.repr ++ ")").toList,
        IsPlain c := by
      simp only [String.toList_append, List.forall_mem_append]
      refine ⟨⟨⟨fun _ => isPlain_of_mem_name, ?_⟩, fun _ => isPlain_of_mem_repr⟩, ?_⟩ <;>
        simp [IsPlain]
    unfold edgeStatement originLabel
    simp only [quote_of_isPlain hplain]
    simp only [String.append_assoc]

end Graph

namespace Tableau

variable {t : Tableau}

/-- The edges, each from a node to one of its children. -/
def edges (t : Tableau) : List (NodeId × NodeId) :=
  t.nodes.flatMap fun n => n.children.map (n.id, ·)

theorem join_edgesFrom (t : Tableau) :
    String.join (t.nodes.map t.edgesFrom) =
      String.join (t.edges.map fun e => Graph.edgeStatement e.1 e.2 (t.originOf e.2)) := by
  rw [String.ext_iff]
  simp only [edges, edgesFrom, String.toList_join, List.flatMap_map, List.map_flatMap, List.map_map,
    List.flatMap_assoc, Function.comp_def]

theorem map_snd_edges (t : Tableau) : t.edges.map Prod.snd = t.nodes.flatMap Node.children := by
  simp [edges, List.map_flatMap, Function.comp_def]

/-- The upper end of an edge is the parent of the lower one. -/
theorem exists_node_of_mem_edges (hnodup : t.ids.Nodup) {e : NodeId × NodeId} (h : e ∈ t.edges) :
    ∃ n ∈ t.nodes, n.id = e.2 ∧ n.parent = some e.1 ∧
      t.originOf e.2 = n.asEntry.bind Entry.origin := by
  obtain ⟨m, hm, he⟩ := List.mem_flatMap.mp h
  obtain ⟨c, hc, rfl⟩ := List.mem_map.mp he
  obtain ⟨n, hn, rfl, hparent⟩ := isChild_of_mem_children hm hc
  refine ⟨n, hn, rfl, hparent, ?_⟩
  rw [originOf, node?_eq_some hnodup hn, Option.bind_some]

/-- Whether a text is the graph of a tableau with the given edges: a header, a statement for each
node in the order of the walk down, a statement for each edge, and a brace. -/
structure IsGraph (t : Tableau) (text : String) (edges : List (NodeId × NodeId)) : Prop where
  text_eq : text =
    "digraph Tableau \x7b\n  node [shape=box];\n" ++
      String.join (t.nodes.map fun n =>
        "  n" ++ n.id.repr ++ " [label=" ++ "\"" ++
          String.ofList (Graph.escaped (n.id.repr ++ ": " ++ n.label).toList) ++ "\"" ++
            Graph.style n.content ++ "];\n") ++
      String.join (edges.map fun e =>
        "  n" ++ e.1.repr ++ " -> n" ++ e.2.repr ++ Graph.originLabel (t.originOf e.2) ++ ";\n") ++
      "\x7d\n"
  /-- The nodes are in the order of the walk down from the root. -/
  map_id_nodes : t.nodes.map Node.id = t.descendants t.root
  nodup : (t.descendants t.root).Nodup
  /-- Every node but the root is the lower end of one edge. -/
  perm_descendants : (t.root :: edges.map Prod.snd).Perm (t.descendants t.root)
  /-- An edge comes from the parent and tells the origin of the node, if it has one. -/
  exists_node : ∀ e ∈ edges, ∃ n ∈ t.nodes, n.id = e.2 ∧ n.parent = some e.1 ∧
    t.originOf e.2 = n.asEntry.bind Entry.origin
  /-- Reading a label ends at the quote that closes it, whatever comes after that quote. -/
  readQuoted_label : ∀ n ∈ t.nodes, ∀ rest,
    Graph.readQuoted (Graph.escaped (n.id.repr ++ ": " ++ n.label).toList ++ '"' :: rest) =
      some ((n.id.repr ++ ": " ++ n.label).toList, rest)

theorem WellFormed.isGraph (h : t.WellFormed) : t.IsGraph t.graph t.edges where
  text_eq := by
    have hnodes := List.map_congr_left (l := t.nodes) fun n _ => Graph.nodeStatement_eq n
    have hedges := List.map_congr_left (l := t.edges) fun e _ =>
      Graph.edgeStatement_eq e.1 e.2 (t.originOf e.2)
    unfold graph
    simp only [join_edgesFrom, hnodes, hedges]
  map_id_nodes := h.map_id_nodes_eq_descendants
  nodup := h.nodup_descendants_root
  perm_descendants := by
    have hperm := t.tops_append_children_perm none 0
    rwa [h.tops_eq, ← nodes, ← map_snd_edges, List.singleton_append, ← h.descendants_root] at hperm
  exists_node _ he := exists_node_of_mem_edges h.numbered.nodup he
  readQuoted_label n _ rest := Graph.readQuoted_escaped _ rest

end Tableau

end SignedTableaux
