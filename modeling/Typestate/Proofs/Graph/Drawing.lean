import Typestate.Proofs.Digraph.Names
import Typestate.Proofs.Graph.Names
import Typestate.Proofs.Graph.Neighbors
import Typestate.Proofs.Machine.Load
import Typestate.Proofs.Text.Fields

/-!
A graph, the neighbours of its nodes, and its diagrams. They describe the same edges: each edge stands once
among the neighbours of its source and once among those of its target, and has a line of its own in a diagram,
behind which there is one for every node that is isolated by its neighbours. The text of a diagram has these lines
unless a name breaks a line, or an edge ends at a node with the empty name (`placedNodes_drawn`). A name can break a
line: a digraph can name a node so (`brokenLine_drawn`).
-/

namespace Typestate

/-- The line of an edge, with both of its ends. -/
def edgeLine (arrow : String) (key : EdgeKey) : String :=
  "  " ++ key.source ++ " " ++ arrow ++ " " ++ key.target ++ ";"

/-- The line of a node by itself. -/
def nodeLine (name : String) : String := "  " ++ name ++ ";"

/-- A line for every edge, in order, and then one for each of some nodes. -/
def Graph.drawing (g : Graph) (arrow : String) (alone : List String) : List String :=
  g.edges.keys.map (edgeLine arrow) ++ alone.map nodeLine

/-! ## Lines -/

/-- What is drawn for an edge. -/
def drawnLine (arrow : String) (key : EdgeKey) : String :=
  if key.target = "" then nodeLine key.source else edgeLine arrow key

theorem line_edge (arrow : String) (key : EdgeKey) :
    Stroke.line arrow (.edge key.source key.target) = drawnLine arrow key ++ "\n" := by
  have hend : ";\n" = ";" ++ "\n" := rfl
  obtain ⟨source, target⟩ := key
  unfold drawnLine Stroke.line
  split
  · next heq =>
    obtain ⟨rfl, rfl⟩ := Stroke.edge.inj heq
    rw [if_pos rfl, nodeLine, hend, ← String.append_assoc]
  · next hne heq =>
    obtain ⟨rfl, rfl⟩ := Stroke.edge.inj heq
    rw [if_neg hne, edgeLine, hend, ← String.append_assoc]
  · next heq => cases heq

theorem line_node (arrow name : String) : Stroke.line arrow (.node name) = nodeLine name ++ "\n" := by
  have hend : ";\n" = ";" ++ "\n" := rfl
  rw [Stroke.line, nodeLine, hend, ← String.append_assoc]

/-- Both ends of an edge are drawn unless its target has the empty name. -/
theorem drawnLine_eq_iff (arrow : String) (key : EdgeKey) :
    drawnLine arrow key = edgeLine arrow key ↔ key.target ≠ "" := by
  unfold drawnLine
  split
  · next hempty =>
    refine iff_of_false (fun heq => ?_) (not_not.mpr hempty)
    have hspace : " ".length = 1 := rfl
    have hlength := congrArg String.length heq
    simp only [nodeLine, edgeLine, String.length_append, hspace] at hlength
    omega
  · next hne => exact iff_of_true rfl hne

theorem map_drawnLine_eq_iff (arrow : String) (keys : List EdgeKey) :
    keys.map (drawnLine arrow) = keys.map (edgeLine arrow) ↔ ∀ key ∈ keys, key.target ≠ "" := by
  rw [List.map_inj_left]
  exact forall₂_congr fun key _ => drawnLine_eq_iff arrow key

theorem not_mem_nodeLine_iff (name : String) : '\n' ∉ (nodeLine name).toList ↔ '\n' ∉ name.toList := by
  have hmargin : '\n' ∉ "  ".toList := by decide
  have hend : '\n' ∉ ";".toList := by decide
  simp only [nodeLine, String.toList_append, List.mem_append, hmargin, hend, or_false, false_or]

theorem not_mem_edgeLine_iff {arrow : String} (harrow : '\n' ∉ arrow.toList) (key : EdgeKey) :
    '\n' ∉ (edgeLine arrow key).toList ↔ '\n' ∉ key.source.toList ∧ '\n' ∉ key.target.toList := by
  have hmargin : '\n' ∉ "  ".toList := by decide
  have hspace : '\n' ∉ " ".toList := by decide
  have hend : '\n' ∉ ";".toList := by decide
  simp only [edgeLine, String.toList_append, List.mem_append, hmargin, hspace, hend, harrow, or_false, false_or, not_or]

namespace Graph

variable {g : Graph}

/-- The nodes that are isolated by their neighbours are those that no edge mentions. -/
theorem filter_placed_isolate : (g.placed.filter (·.neighborhood.kind == .isolate)).map (·.name) =
    g.nodes.keys.filter g.isIsolated := by
  have hentry : ∀ e ∈ g.nodes.entries,
      ((g.neighborhoodAt e.1).kind == .isolate) = g.isIsolated e.1 := by
    intro e _
    rw [Bool.eq_iff_iff, beq_iff_eq]
    exact kind_isolate_iff e.1
  unfold placed SortedMap.keys
  rw [List.filter_map, List.filter_map, List.map_map]
  exact congrArg (List.map fun e : String × Node => e.1) (List.filter_congr hentry)

/-- The lines that are drawn. -/
def drawn (g : Graph) (arrow : String) : List String :=
  g.edges.keys.map (drawnLine arrow) ++ (g.nodes.keys.filter g.isIsolated).map nodeLine

theorem join_strokes (arrow : String) :
    String.join (g.strokes.map (Stroke.line arrow)) = String.join ((g.drawn arrow).map (· ++ "\n")) := by
  have hedges : (fun key : EdgeKey => Stroke.line arrow (.edge key.source key.target)) =
      fun key => drawnLine arrow key ++ "\n" := funext fun key => line_edge arrow key
  have hnodes : (fun name => Stroke.line arrow (.node name)) = fun name => nodeLine name ++ "\n" :=
    funext fun name => line_node arrow name
  simp only [strokes, drawn, List.map_append, List.map_map, Function.comp_def, hedges, hnodes]

theorem toDot_eq (title : String) : g.toDot title =
    String.join ((("digraph " ++ title ++ " \x7b") :: g.drawn "->" ++ ["\x7d"]).map (· ++ "\n")) := by
  have hopen : " \x7b\n" = " \x7b" ++ "\n" := rfl
  have hclose : "\x7d\n" = "\x7d" ++ "\n" := rfl
  have hlast : String.join (["\x7d"].map (· ++ "\n")) = "\x7d" ++ "\n" := by decide
  rw [toDot, join_strokes, List.map_append, List.map_cons, String.join_append, String.join_cons, hlast, hopen, hclose]
  simp only [String.append_assoc]

theorem toMermaid_eq : g.toMermaid = String.join (("graph LR" :: g.drawn "-->").map (· ++ "\n")) := by
  rw [toMermaid, join_strokes, List.map_cons, String.join_cons]
  rfl

/-- Every name stands in the drawing. -/
theorem drawing_breakless_iff (hclosed : g.Closed) {arrow : String} (harrow : '\n' ∉ arrow.toList) :
    (∀ line ∈ g.drawing arrow (g.nodes.keys.filter g.isIsolated), '\n' ∉ line.toList) ↔
      ∀ name ∈ g.nodes.keys, '\n' ∉ name.toList := by
  simp only [drawing, List.forall_mem_append, List.forall_mem_map, not_mem_edgeLine_iff harrow, not_mem_nodeLine_iff,
    List.mem_filter]
  constructor
  · rintro ⟨hedges, halone⟩ name hname
    by_cases hisolated : g.isIsolated name = true
    · exact halone name ⟨hname, hisolated⟩
    · simp only [isIsolated, List.all_eq_true, Bool.and_eq_true, bne_iff_ne, not_forall, not_and_or, not_not] at hisolated
      obtain ⟨key, hkey, rfl | rfl⟩ := hisolated
      · exact (hedges key hkey).1
      · exact (hedges key hkey).2
  · intro h
    exact ⟨fun key hkey => ⟨h _ (hclosed key hkey).1, h _ (hclosed key hkey).2⟩, fun name hname => h name hname.1⟩

/-- What is drawn, in a frame of lines, makes these lines of a text if and only if no name breaks a line and every edge
shows its target. -/
theorem lines_drawn_iff (hclosed : g.Closed) {arrow : String} (harrow : '\n' ∉ arrow.toList)
    (front behind : List String) :
    (front ++ g.drawn arrow ++ behind).flatMap Text.lines =
        front ++ g.drawing arrow (g.nodes.keys.filter g.isIsolated) ++ behind ↔
      ((∀ line ∈ front, '\n' ∉ line.toList) ∧ ∀ line ∈ behind, '\n' ∉ line.toList) ∧
        (∀ name ∈ g.nodes.keys, '\n' ∉ name.toList) ∧ ∀ key ∈ g.edges.keys, key.target ≠ "" := by
  have hdrawn : g.drawn arrow = g.drawing arrow (g.nodes.keys.filter g.isIsolated) ↔
      ∀ key ∈ g.edges.keys, key.target ≠ "" := by
    rw [drawn, drawing, List.append_left_inj, map_drawnLine_eq_iff]
  rw [Text.flatMap_lines_eq_iff (by simp [drawn, drawing]), List.append_left_inj, List.append_right_inj, hdrawn,
    ← drawing_breakless_iff hclosed harrow]
  simp only [List.forall_mem_append]
  constructor
  · rintro ⟨⟨⟨hfront, hlines⟩, hbehind⟩, htargets⟩
    exact ⟨⟨hfront, hbehind⟩, hdrawn.mpr htargets ▸ hlines, htargets⟩
  · rintro ⟨⟨hfront, hbehind⟩, hlines, htargets⟩
    exact ⟨⟨⟨hfront, hdrawn.mpr htargets ▸ hlines⟩, hbehind⟩, htargets⟩

/-- The lines of a Graphviz digraph are a heading, the drawing, and a closing brace, if and only if no name breaks a
line and every edge shows its target. -/
theorem lines_toDot_iff (hclosed : g.Closed) (title : String) :
    Text.lines (g.toDot title) = ("digraph " ++ title ++ " \x7b") ::
        g.drawing "->" (g.nodes.keys.filter g.isIsolated) ++ ["\x7d", ""] ↔
      '\n' ∉ title.toList ∧ (∀ name ∈ g.nodes.keys, '\n' ∉ name.toList) ∧ ∀ key ∈ g.edges.keys, key.target ≠ "" := by
  have hopen : '\n' ∉ "digraph ".toList ∧ '\n' ∉ " \x7b".toList ∧ '\n' ∉ "\x7d".toList := by decide
  have harrow : '\n' ∉ "->".toList := by decide
  have hiff := lines_drawn_iff hclosed harrow ["digraph " ++ title ++ " \x7b"] ["\x7d"]
  simp only [List.forall_mem_singleton, String.toList_append, List.mem_append, hopen, or_false, false_or,
    not_false_eq_true, and_true] at hiff
  have hframe : ("digraph " ++ title ++ " \x7b") :: g.drawing "->" (g.nodes.keys.filter g.isIsolated) ++ ["\x7d", ""] =
      ["digraph " ++ title ++ " \x7b"] ++ g.drawing "->" (g.nodes.keys.filter g.isIsolated) ++ ["\x7d"] ++ [""] := by
    simp only [List.cons_append, List.append_assoc, List.nil_append]
  rw [toDot_eq, Text.lines_join, hframe, List.append_left_inj]
  exact hiff

/-- The lines of a mermaid flowchart are a heading and the drawing under the same condition. -/
theorem lines_toMermaid_iff (hclosed : g.Closed) :
    Text.lines g.toMermaid = "graph LR" :: g.drawing "-->" (g.nodes.keys.filter g.isIsolated) ++ [""] ↔
      (∀ name ∈ g.nodes.keys, '\n' ∉ name.toList) ∧ ∀ key ∈ g.edges.keys, key.target ≠ "" := by
  have hheading : '\n' ∉ "graph LR".toList := by decide
  have harrow : '\n' ∉ "-->".toList := by decide
  have hiff := lines_drawn_iff hclosed harrow ["graph LR"] []
  simp only [List.forall_mem_singleton, hheading, List.append_nil, List.not_mem_nil, false_imp_iff, implies_true,
    not_false_eq_true, true_and] at hiff
  rw [toMermaid_eq, Text.lines_join, List.append_left_inj]
  exact hiff

/-- **Drawing.** For every graph in which the ends of edges are nodes, the neighbours of each node are found.
Every edge stands in the list of outgoing neighbours of its source and in that of incoming neighbours of its
target once, with its data, and in no other list; both lists are in the order of names. A node has a connector
if and only if an edge leaves it. The texts of the two diagrams have, behind a heading, a line for every edge, in
order, and then a line for every node that is isolated by its neighbours, if and only if there is no line feed in a
name and no edge ends at a node with the empty name. -/
theorem placedNodes_drawn (hclosed : g.Closed) : ∃ nodes, g.placedNodes = .ok nodes ∧
    nodes.map (·.name) = g.nodes.keys ∧
    (∀ c ∈ nodes, g.neighborhood c.name = .ok c.neighborhood ∧
      g.outgoing c.name = .ok c.neighborhood.outgoing ∧
      g.OtherEnds (·.source == c.name) (EdgeKey.mk c.name) c.neighborhood.outgoing ∧
      g.incoming c.name = .ok c.neighborhood.incoming ∧
      g.OtherEnds (·.target == c.name) (EdgeKey.mk · c.name) c.neighborhood.incoming ∧
      (c.neighborhood.hasConnector = true ↔ ∃ target, ⟨c.name, target⟩ ∈ g.edges.keys)) ∧
    let alone := (nodes.filter (·.neighborhood.kind == .isolate)).map (·.name)
    (∀ title, Text.lines (g.toDot title) =
        ("digraph " ++ title ++ " \x7b") :: g.drawing "->" alone ++ ["\x7d", ""] ↔
      '\n' ∉ title.toList ∧ (∀ name ∈ g.nodes.keys, '\n' ∉ name.toList) ∧
        ∀ key ∈ g.edges.keys, key.target ≠ "") ∧
    (Text.lines g.toMermaid = "graph LR" :: g.drawing "-->" alone ++ [""] ↔
      (∀ name ∈ g.nodes.keys, '\n' ∉ name.toList) ∧ ∀ key ∈ g.edges.keys, key.target ≠ "") := by
  refine ⟨g.placed, placedNodes_eq hclosed, placed_names g, fun c hc => ?_, ?_⟩
  · obtain ⟨⟨name, n⟩, hmem, rfl⟩ := List.mem_map.mp hc
    obtain ⟨hincoming, houtgoing⟩ := incoming_outgoing_eq hclosed name
    exact ⟨neighborhood_eq hclosed (List.mem_map_of_mem hmem), houtgoing, otherEnds_outgoing hclosed name,
      hincoming, otherEnds_incoming hclosed name, hasConnector_iff name⟩
  · dsimp only
    rw [filter_placed_isolate]
    exact ⟨lines_toDot_iff hclosed, lines_toMermaid_iff hclosed⟩

/-- A loop, two nodes with edges to each other, a node that edges only enter, and one without edges. -/
def roundabout : Graph where
  nodes := .ofList [("Ring", {}), ("Exit", {}), ("Lawn", {}), ("Ramp", {})]
  edges := .ofList [(⟨"Ring", "Ring"⟩, { methodName := "turn" }), (⟨"Ring", "Ramp"⟩, { methodName := "leave" }),
    (⟨"Ramp", "Ring"⟩, { methodName := "enter" }), (⟨"Ramp", "Exit"⟩, { methodName := "exit" })]

theorem roundabout_drawn : roundabout.Closed ∧ ∃ nodes, roundabout.placedNodes = .ok nodes ∧
    nodes.map (·.name) = ["Exit", "Lawn", "Ramp", "Ring"] ∧
    (∀ c ∈ nodes, roundabout.OtherEnds (·.source == c.name) (EdgeKey.mk c.name) c.neighborhood.outgoing ∧
      roundabout.OtherEnds (·.target == c.name) (EdgeKey.mk · c.name) c.neighborhood.incoming) ∧
    Text.lines (roundabout.toDot "R") =
      "digraph R \x7b" :: roundabout.drawing "->" ["Lawn"] ++ ["\x7d", ""] := by
  have hclosed : roundabout.Closed := by
    unfold Closed
    decide +kernel
  have hdrawable : '\n' ∉ "R".toList ∧ (∀ name ∈ roundabout.nodes.keys, '\n' ∉ name.toList) ∧
      ∀ key ∈ roundabout.edges.keys, key.target ≠ "" := by decide +kernel
  obtain ⟨nodes, hnodes, hnames, hlists, hdot, -⟩ := placedNodes_drawn hclosed
  have halone : (nodes.filter (·.neighborhood.kind == .isolate)).map (·.name) = ["Lawn"] := by
    rw [placedNodes_eq hclosed] at hnodes
    cases hnodes
    decide +kernel
  rw [halone] at hdot
  refine ⟨hclosed, nodes, hnodes, hnames.trans (by decide +kernel), fun c hc => ?_, (hdot "R").mpr hdrawable⟩
  obtain ⟨-, -, houtgoing, -, hincoming, -⟩ := hlists c hc
  exact ⟨houtgoing, hincoming⟩

/-- A digraph with a line feed in the name of a node. -/
def brokenLine : Source := { text := "digraph M \x7b \"B\n\" -> C; \x7d" }

/-- The machine has one edge, and two lines in a diagram for it. -/
theorem brokenLine_drawn :
    Digraph.reference.read brokenLine.text =
      .ok [{ name := "M", nodes := [], edges := [((.node "\"B\n\"", .node "C"), false)] }] ∧
    ∀ library, library.read brokenLine.text = Digraph.reference.read brokenLine.text →
      ∃ m events, Machine.load brokenLine (.digraph library) {} [] = .ok m events ∧ m.graph.Closed ∧
        m.graph.edges.keys = [⟨"B\n", "C"⟩] ∧
        Text.lines (m.graph.toDot m.document.name) = ["digraph M \x7b", "  B", " -> C;", "\x7d", ""] ∧
        Text.lines m.graph.toMermaid = ["graph LR", "  B", " --> C;", ""] := by
  refine ⟨by decide +kernel, fun library hlibrary => ?_⟩
  obtain ⟨m, events, -, hload, -, hcheck⟩ := Machine.exists_loadIn_of_check .digraph brokenLine
    (fun m _ => decide (m.graph.edges.keys = [⟨"B\n", "C"⟩] ∧
      Text.lines (m.graph.toDot m.document.name) = ["digraph M \x7b", "  B", " -> C;", "\x7d", ""] ∧
      Text.lines m.graph.toMermaid = ["graph LR", "  B", " --> C;", ""])) (by decide +kernel)
  obtain ⟨_, _, _, _, hdrawn⟩ := Machine.read_of_load hload
  refine ⟨m, events, ?_, hdrawn.built.closed, of_decide_eq_true hcheck⟩
  rw [Machine.load_congr hlibrary]
  exact hload

end Graph

end Typestate
