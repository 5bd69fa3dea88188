import Typestate.Graph.Diagram
import Typestate.Proofs.Digraph.Listing
import Typestate.Proofs.Graph.Drawing
import Typestate.Proofs.Graph.Reordering

/-!
Diagrams of graphs as digraphs, whatever the library that reads them. A diagram has a line for every edge and for every
node without edges. If all names are plain, it is read as the machine of the same nodes and edges
(`Source.parseDigraph_toDot`). A marker makes the rest of its line a comment: there is no digraph with a raw name
(`Source.not_raw_of_parseDigraph`), and no raw node in one (`Source.unmarked_of_parseDigraph`).
-/

namespace Typestate

open Word (method arrow semicolon leftBrace rightBrace)

open Identifier (IsPlain IsPlainWord IsAsciiName)

/-! ## Layout -/

namespace Stroke

/-- The names in a line of a diagram. -/
def names : Stroke → List String
  | edge source target => [source, target]
  | node name => [name]

/-- What a line of a diagram says: an edge, or a node by itself. -/
def statement : Stroke → Statement
  | edge source target => EdgeKey.statement ⟨source, target⟩
  | node name => .node { name }

/-- A line of plain names is a trail. -/
def trail : (s : Stroke) → (∀ n ∈ s.names, IsPlain n) → Trail
  | edge source target, h => ⟨⟨source, h source (by simp [names])⟩, [⟨target, h target (by simp [names])⟩]⟩
  | node name, h => ⟨⟨name, h name (by simp [names])⟩, []⟩

theorem parts_trail (s : Stroke) (h : ∀ n ∈ s.names, IsPlain n) : (s.trail h).parts = [s.statement] := by
  cases s <;> rfl

theorem isCanonical_trail_iff (s : Stroke) (h : ∀ n ∈ s.names, IsPlain n) :
    (s.trail h).IsCanonical ↔ ∀ n ∈ s.names, Identifier.canonical n = .ok n := by
  cases s <;> simp [trail, names, Trail.IsCanonical, Trail.names, PlainName.IsCanonical]

end Stroke

theorem LaidOut.indent {ws : List Word} {gap cs : List Char} (hgap : ∀ c ∈ gap, Lexeme.isSpace c = true)
    (h : LaidOut ws cs) : LaidOut ws (gap ++ cs) := by
  cases h with
  | nil hrest => exact .nil (List.forall_mem_append.mpr ⟨hgap, hrest⟩)
  | cons hmore hapart hrest =>
    rw [← List.append_assoc]
    exact .cons (List.forall_mem_append.mpr ⟨hgap, hmore⟩) hapart hrest

/-- A word in front of others. -/
theorem LaidOut.word {w : Word} {ws : List Word} {cs : List Char} (hapart : w.Apart cs) (h : LaidOut ws cs) :
    LaidOut (w :: ws) (w.text ++ cs) :=
  LaidOut.cons (List.forall_mem_nil _) hapart h

theorem apart_name {n : String} (hn : IsPlainWord n.toList) {c : Char} (hc : c ∈ [' ', ';']) (cs : List Char) :
    (method n).Apart (c :: cs) := by
  have hline : ¬ ['/', '/'] <+: n.toList := by
    intro hslashes
    exact Identifier.not_mem_of_isPlainWord hn (by decide) (hslashes.subset List.mem_cons_self)
  simp only [List.mem_cons, List.not_mem_nil, or_false] at hc
  rcases hc with rfl | rfl
  · exact .of_space hline rfl
  · exact .of_head hline (by decide) (fun h => absurd h (by decide)) (by decide) (by decide)

theorem forall_space : ∀ c ∈ [' '], Lexeme.isSpace c = true := List.forall_mem_singleton.mpr rfl

/-- The line of an edge or of a node, in front of others. -/
theorem laidOut_line (s : Stroke) (hs : ∀ n ∈ s.names, IsPlain n) {ws : List Word} {cs : List Char}
    (h : LaidOut ws cs) : LaidOut ((s.trail hs).words ++ ws) ((s.line "->").toList ++ cs) := by
  have hnewline : ∀ c ∈ ['\n'], Lexeme.isSpace c = true := List.forall_mem_singleton.mpr rfl
  have hend : LaidOut (semicolon :: ws) (';' :: '\n' :: cs) :=
    LaidOut.word (Lexeme.Apart.of_space (by decide) rfl) (h.indent hnewline)
  have hmargin : ∀ c ∈ [' ', ' '], Lexeme.isSpace c = true := List.all_eq_true.mp rfl
  have hspace : " ".toList = [' '] := rfl
  cases s with
  | edge source target =>
    have hsource : IsPlainWord source.toList := PlainName.isPlainWord ⟨source, hs source (by simp [Stroke.names])⟩
    have htarget : IsPlainWord target.toList := PlainName.isPlainWord ⟨target, hs target (by simp [Stroke.names])⟩
    have hne : target ≠ "" := by
      rintro rfl
      cases htarget
    have hline : ((Stroke.edge source target).line "->").toList ++ cs = [' ', ' '] ++ (source.toList ++ ([' '] ++
        (['-', '>'] ++ ([' '] ++ (target.toList ++ ';' :: '\n' :: cs))))) := by
      have hdrawn := (drawnLine_eq_iff "->" ⟨source, target⟩).mpr hne
      rw [line_edge "->" ⟨source, target⟩, hdrawn, edgeLine]
      simp [String.toList_append, hspace]
    rw [hline]
    have htarget : LaidOut (method target :: semicolon :: ws) (target.toList ++ ';' :: '\n' :: cs) :=
      LaidOut.word (apart_name htarget (by decide) _) hend
    have harrow : LaidOut (arrow :: method target :: semicolon :: ws)
        (['-', '>'] ++ ([' '] ++ (target.toList ++ ';' :: '\n' :: cs))) :=
      LaidOut.word (Lexeme.Apart.of_space (by decide) rfl) (htarget.indent forall_space)
    exact (LaidOut.word (apart_name hsource (by decide) _) (harrow.indent forall_space)).indent hmargin
  | node n =>
    have hn : IsPlainWord n.toList := PlainName.isPlainWord ⟨n, hs n (by simp [Stroke.names])⟩
    have hline : ((Stroke.node n).line "->").toList ++ cs = [' ', ' '] ++ (n.toList ++ ';' :: '\n' :: cs) := by
      rw [line_node, nodeLine]
      simp [String.toList_append]
    rw [hline]
    exact (LaidOut.word (apart_name hn (by decide) _) hend).indent hmargin

/-- The trails of lines of plain names. -/
def strokeTrails (strokes : List Stroke) (h : ∀ s ∈ strokes, ∀ n ∈ s.names, IsPlain n) : List Trail :=
  strokes.pmap Stroke.trail h

section
variable {strokes : List Stroke} (hstrokes : ∀ s ∈ strokes, ∀ n ∈ s.names, IsPlain n)

theorem laidOut_lines {ws : List Word} {cs : List Char} (h : LaidOut ws cs) :
    LaidOut ((strokeTrails strokes hstrokes).flatMap Trail.words ++ ws)
      ((String.join (strokes.map (Stroke.line "->"))).toList ++ cs) := by
  induction strokes with
  | nil => exact h
  | cons s strokes ih =>
    rw [strokeTrails, List.pmap_cons, List.flatMap_cons, List.append_assoc, List.map_cons, String.join_cons,
      String.toList_append, List.append_assoc]
    exact laidOut_line s _ (ih (List.forall_mem_cons.mp hstrokes).2)

theorem parts_strokeTrails : (strokeTrails strokes hstrokes).flatMap Trail.parts = strokes.map Stroke.statement := by
  induction strokes with
  | nil => rfl
  | cons s strokes ih =>
    rw [strokeTrails, List.pmap_cons, List.flatMap_cons, s.parts_trail, List.map_cons, List.singleton_append]
    exact congrArg _ (ih (List.forall_mem_cons.mp hstrokes).2)

theorem isCanonical_strokeTrails_iff : (∀ t ∈ strokeTrails strokes hstrokes, t.IsCanonical) ↔
    ∀ s ∈ strokes, ∀ n ∈ s.names, Identifier.canonical n = .ok n := by
  induction strokes with
  | nil => exact iff_of_true (List.forall_mem_nil _) (List.forall_mem_nil _)
  | cons s strokes ih =>
    have hmore := ih (List.forall_mem_cons.mp hstrokes).2
    rw [strokeTrails, List.pmap_cons, List.forall_mem_cons, s.isCanonical_trail_iff]
    exact (and_congr_right' hmore).trans (List.forall_mem_cons (p := fun s : Stroke =>
      ∀ n ∈ s.names, Identifier.canonical n = .ok n)).symm

end

namespace Digraph

/-- The digraph of a graph has the names of its lines in a row. -/
theorem laidOut_toDot (n : PlainName) {g : Graph} (hstrokes : ∀ s ∈ g.strokes, ∀ x ∈ s.names, IsPlain x) :
    LaidOut (graphWords n (strokeTrails g.strokes hstrokes)) (g.toDot n.text).toList := by
  have hnewline : ∀ c ∈ ['\n'], Lexeme.isSpace c = true := List.forall_mem_singleton.mpr rfl
  have hclose : LaidOut [rightBrace] ['\x7d', '\n'] :=
    LaidOut.word (Lexeme.Apart.of_space (by decide) rfl) (.nil hnewline)
  have hopen := LaidOut.word (w := leftBrace) (Lexeme.Apart.of_space (by decide) rfl)
    ((laidOut_lines hstrokes hclose).indent hnewline)
  have hname := LaidOut.word (apart_name n.isPlainWord (by decide) _) (hopen.indent forall_space)
  have hall := LaidOut.word (w := Word.identifier "digraph") (Lexeme.Apart.of_space (by decide) rfl)
    (hname.indent forall_space)
  have htext : (g.toDot n.text).toList = (Word.identifier "digraph").text ++ ([' '] ++ ((method n.text).text ++ ([' '] ++
      (leftBrace.text ++ (['\n'] ++ ((String.join (g.strokes.map (Stroke.line "->"))).toList ++
        ['\x7d', '\n'])))))) := by
    have htitle : "digraph ".toList = "digraph".toList ++ [' '] := rfl
    rw [Graph.toDot]
    simp only [String.toList_append, htitle, List.append_assoc]
    rfl
  rw [htext]
  exact hall

/-! ## Raw names -/

/-- A character in the lines of a diagram whose names are ASCII identifiers, raw or not. -/
def isDrawn (c : Char) : Bool := Identifier.isPlainChar c || "# ;->".toList.contains c

theorem isDrawn_name {n : String} (hn : IsAsciiName n) : ∀ c ∈ n.toList, isDrawn c = true := by
  intro c hc
  rw [isDrawn, Bool.or_eq_true]
  rcases Identifier.mem_of_isAsciiName hn hc with hplain | rfl
  · exact Or.inl hplain
  · exact Or.inr (by decide)

theorem isDrawn_nodeLine {n : String} (hn : IsAsciiName n) : ∀ c ∈ (nodeLine n).toList, isDrawn c = true := by
  have hmargin : ∀ c ∈ "  ".toList, isDrawn c = true := List.all_eq_true.mp (by decide)
  have hend : ∀ c ∈ ";".toList, isDrawn c = true := List.all_eq_true.mp (by decide)
  rw [nodeLine]
  simp only [String.toList_append, List.forall_mem_append]
  exact ⟨⟨hmargin, isDrawn_name hn⟩, hend⟩

theorem isDrawn_edgeLine {key : EdgeKey} (hsource : IsAsciiName key.source) (htarget : IsAsciiName key.target) :
    ∀ c ∈ (edgeLine "->" key).toList, isDrawn c = true := by
  have hmargin : ∀ c ∈ "  ".toList, isDrawn c = true := List.all_eq_true.mp (by decide)
  have hspace : ∀ c ∈ " ".toList, isDrawn c = true := List.all_eq_true.mp (by decide)
  have harrow : ∀ c ∈ "->".toList, isDrawn c = true := List.all_eq_true.mp (by decide)
  have hend : ∀ c ∈ ";".toList, isDrawn c = true := List.all_eq_true.mp (by decide)
  rw [edgeLine]
  simp only [String.toList_append, List.forall_mem_append]
  exact ⟨⟨⟨⟨⟨⟨hmargin, isDrawn_name hsource⟩, hspace⟩, harrow⟩, hspace⟩, isDrawn_name htarget⟩, hend⟩

section
variable {g : Graph} {n : String} (hclosed : g.Closed) (hnames : ∀ x ∈ g.nodes.keys, IsAsciiName x)
include hclosed hnames

theorem isDrawn_drawing :
    ∀ line ∈ g.drawing "->" (g.nodes.keys.filter g.isIsolated), ∀ c ∈ line.toList, isDrawn c = true := by
  refine List.forall_mem_append.mpr ⟨List.forall_mem_map.mpr fun key hkey => ?_,
    List.forall_mem_map.mpr fun x hx => isDrawn_nodeLine (hnames x (List.mem_filter.mp hx).1)⟩
  obtain ⟨hsource, htarget⟩ := hclosed key hkey
  exact isDrawn_edgeLine (hnames _ hsource) (hnames _ htarget)

variable (hn : IsAsciiName n)
include hn

/-- Names in ASCII break no lines. -/
theorem lines_toDot_ascii : Text.lines (g.toDot n) = ("digraph " ++ n ++ " \x7b") ::
    g.drawing "->" (g.nodes.keys.filter g.isIsolated) ++ ["\x7d", ""] := by
  have hbreak : ∀ {x : String}, IsAsciiName x → '\n' ∉ x.toList := by
    intro x hx hmem
    rcases Identifier.mem_of_isAsciiName hx hmem with hplain | hmarker
    · exact absurd hplain (by decide)
    · exact absurd hmarker (by decide)
  refine (Graph.lines_toDot_iff hclosed n).mpr ⟨hbreak hn, fun x hx => hbreak (hnames x hx), fun key hkey => ?_⟩
  intro hempty
  obtain ⟨c, more, hcons, -⟩ := Identifier.exists_cons_of_isAsciiName (hnames _ (hclosed key hkey).2)
  rw [hempty] at hcons
  cases hcons

theorem not_mem_toDot {c : Char} (hc : isDrawn c = false) (hother : c ∉ "\x7b\x7d\n".toList) :
    c ∉ (g.toDot n).toList := by
  intro hmem
  have hnot : ∀ {cs : List Char}, (∀ d ∈ cs, isDrawn d = true) → c ∉ cs := by
    intro cs hcs hmem
    rw [hcs c hmem] at hc
    cases hc
  have hbraces : "\x7b\x7d\n".toList = ['\x7b', '\x7d', '\n'] := rfl
  simp only [hbraces, List.mem_cons, List.not_mem_nil, or_false, not_or] at hother
  obtain ⟨hopen, hclose, hbreak⟩ := hother
  obtain ⟨line, hline, hmem⟩ := Text.exists_field_of_mem hbreak hmem
  have hlines : String.ofList line ∈ Text.lines (g.toDot n) := List.mem_map_of_mem hline
  rw [← String.toList_ofList (l := line)] at hmem
  rw [lines_toDot_ascii hclosed hnames hn, List.cons_append, List.mem_cons, List.mem_append] at hlines
  rcases hlines with hheading | hdrawing | hend
  · have htitle : ∀ d ∈ "digraph ".toList, isDrawn d = true := List.all_eq_true.mp (by decide)
    have hbrace : " \x7b".toList = [' ', '\x7b'] := rfl
    rw [hheading, String.toList_append, String.toList_append, hbrace, List.mem_append, List.mem_append] at hmem
    rcases hmem with (hmem | hmem) | hmem
    · exact hnot htitle hmem
    · exact hnot (isDrawn_name hn) hmem
    · rcases List.mem_pair.mp hmem with rfl | rfl
      · cases hc
      · exact hopen rfl
  · exact hnot (isDrawn_drawing hclosed hnames _ hdrawing) hmem
  · rcases List.mem_pair.mp hend with hend | hend
    · rw [hend] at hmem
      exact hclose (List.mem_singleton.mp hmem)
    · rw [hend] at hmem
      cases hmem

/-- There are no quotes, no ports and no markup in the digraph of a graph. -/
theorem unquoted_toDot : Unquoted (g.toDot n).toList where
  quote := not_mem_toDot hclosed hnames hn (by decide) (by decide)
  angle := not_mem_toDot hclosed hnames hn (by decide) (by decide)
  colon := not_mem_toDot hclosed hnames hn (by decide) (by decide)
  slash := not_mem_toDot hclosed hnames hn (by decide) (by decide)

/-- With a raw name the brace of the digraph stands in a comment. -/
theorem opensNothing_toDot (hraw : Identifier.isRaw n = true) : OpensNothing (g.toDot n).toList := by
  intro line hline
  have hlines : String.ofList line ∈ Text.lines (g.toDot n) := List.mem_map_of_mem hline
  rw [lines_toDot_ascii hclosed hnames hn, List.cons_append, List.mem_cons, List.mem_append] at hlines
  suffices hchars : '\x7b' ∉ (String.ofList line).toList.takeWhile (· != '#') by
    rwa [String.toList_ofList] at hchars
  rcases hlines with hheading | hdrawing | hend
  · have hmarked : n.toList = 'r' :: '#' :: Identifier.bareChars n.toList := Identifier.eq_of_raw hraw
    have htitle : "digraph ".toList = ['d', 'i', 'g', 'r', 'a', 'p', 'h', ' '] := rfl
    rw [hheading, String.toList_append, String.toList_append, htitle, hmarked]
    simp
  · intro hmem
    exact absurd (isDrawn_drawing hclosed hnames _ hdrawing _ ((List.takeWhile_prefix _).subset hmem)) (by decide)
  · rcases List.mem_pair.mp hend with hend | hend
    · rw [hend]
      decide
    · rw [hend]
      decide

end

/-! ## Documents -/

theorem names_strokes {g : Graph} (hclosed : g.Closed) : ∀ s ∈ g.strokes, ∀ n ∈ s.names, n ∈ g.nodes.keys := by
  refine List.forall_mem_append.mpr ⟨List.forall_mem_map.mpr fun key hkey => ?_, List.forall_mem_map.mpr fun n hn => ?_⟩
  · obtain ⟨hsource, htarget⟩ := hclosed key hkey
    exact List.forall_mem_cons.mpr ⟨hsource, List.forall_mem_singleton.mpr htarget⟩
  · exact List.forall_mem_singleton.mpr (List.mem_filter.mp hn).1

end Digraph

/-! ## Graphs -/

namespace Graph

variable (g : Graph)

/-- A chain for every edge, and a statement for every node without edges. -/
def statements : List Statement :=
  g.edges.keys.map EdgeKey.statement ++ (g.nodes.keys.filter g.isIsolated).map fun n => .node { name := n }

theorem map_statement_strokes : g.strokes.map Stroke.statement = g.statements := by
  rw [strokes, statements, List.map_append, List.map_map, List.map_map]
  rfl

theorem edgeMentions_statements : edgeMentions g.statements = g.edges.keys.map EdgeKey.mention := by
  have hnodes := edgeMentions_nodes ((g.nodes.keys.filter g.isIsolated).map fun n => { name := n })
  rw [List.map_map] at hnodes
  rw [statements, edgeMentions_append, edgeMentions_edges]
  exact (congrArg _ hnodes).trans (List.append_nil _)

variable {g}

theorem isIsolated_iff (n : String) :
    g.isIsolated n = true ↔ ∀ key ∈ g.edges.keys, key.source ≠ n ∧ key.target ≠ n := by
  simp only [isIsolated, List.all_eq_true, Bool.and_eq_true, bne_iff_ne]

/-- The statements mention the nodes, each by its name alone. -/
theorem mem_mentions_statements (hclosed : g.Closed) (r : NodeRef) :
    r ∈ mentions g.statements ↔ ∃ n ∈ g.nodes.keys, r = { name := n } := by
  have hedge : ∀ key : EdgeKey, r ∈ key.statement.refs ↔ r = { name := key.source } ∨ r = { name := key.target } :=
    fun key => List.mem_pair
  have hnode : ∀ n : String, r ∈ (Statement.node { name := n }).refs ↔ r = { name := n } :=
    fun n => List.mem_singleton
  rw [mem_mentions_refs]
  constructor
  · rintro ⟨s, hs, hr⟩
    rcases List.mem_append.mp hs with hs | hs
    · obtain ⟨key, hkey, rfl⟩ := List.mem_map.mp hs
      obtain ⟨hsource, htarget⟩ := hclosed key hkey
      rcases (hedge key).mp hr with rfl | rfl
      · exact ⟨_, hsource, rfl⟩
      · exact ⟨_, htarget, rfl⟩
    · obtain ⟨n, hn, rfl⟩ := List.mem_map.mp hs
      exact ⟨n, (List.mem_filter.mp hn).1, (hnode n).mp hr⟩
  · rintro ⟨n, hn, hr⟩
    by_cases hisolated : g.isIsolated n = true
    · refine ⟨.node { name := n }, List.mem_append_right _ ?_, (hnode n).mpr hr⟩
      exact List.mem_map_of_mem (List.mem_filter.mpr ⟨hn, hisolated⟩)
    · rw [isIsolated_iff] at hisolated
      push Not at hisolated
      obtain ⟨key, hkey, hend⟩ := hisolated
      refine ⟨key.statement, List.mem_append_left _ (List.mem_map_of_mem hkey), (hedge key).mpr ?_⟩
      by_cases hsource : key.source = n
      · exact Or.inl (hsource ▸ hr)
      · exact Or.inr (hend hsource ▸ hr)

theorem buildable_statements_iff (hclosed : g.Closed) (renameMethods : Bool) (reserved : List String) :
    Buildable renameMethods reserved g.statements ↔
      g.edges.keys ≠ [] ∧ ∀ key ∈ g.edges.keys, key.source ∉ reserved := by
  have hmentions := edgeMentions_statements g
  constructor
  · intro h
    refine ⟨fun hnil => h.someEdge (by rw [hmentions, hnil]; rfl), fun key hkey hmem => ?_⟩
    refine h.unreserved key.source hmem key.mention ?_ rfl
    rw [hmentions]
    exact List.mem_map_of_mem hkey
  · rintro ⟨hsome, hunreserved⟩
    constructor
    case agree =>
      intro r hr r' _ _ ty hty
      obtain ⟨n, -, rfl⟩ := (mem_mentions_statements hclosed r).mp hr
      cases hty
    case edgesOnce =>
      rw [hmentions, List.map_map]
      exact (List.map_id g.edges.keys).symm ▸ g.edges.nodup_keys
    case someEdge =>
      rw [hmentions]
      exact fun hnil => hsome (List.map_eq_nil_iff.mp hnil)
    case namesApart =>
      rw [hmentions]
      intro m hm m' hm' _ _ hnamed
      obtain ⟨key, -, rfl⟩ := List.mem_map.mp hm
      obtain ⟨key', -, rfl⟩ := List.mem_map.mp hm'
      rcases hnamed with hnamed | hnamed <;> cases hnamed
    case unreserved =>
      rw [hmentions]
      intro name hname m hm hsource
      obtain ⟨key, hkey, rfl⟩ := List.mem_map.mp hm
      exact hunreserved key hkey (hsource ▸ hname)

/-- The statements of a graph, in any order, make the same nodes and edges. -/
theorem keys_of_built (hclosed : g.Closed) {renameMethods : Bool} {statements : List Statement} {g' : Graph}
    (hperm : statements.Perm g.statements) (h : Built renameMethods statements g') :
    g'.nodes.keys = g.nodes.keys ∧ g'.edges.keys = g.edges.keys := by
  constructor
  · refine SortedMap.keys_eq fun n => ?_
    rw [h.mem_node_keys]
    simp only [(mentions_perm hperm).mem_iff, mem_mentions_statements hclosed]
    constructor
    · rintro ⟨_, ⟨n, hn, rfl⟩, rfl⟩
      exact hn
    · exact fun hn => ⟨_, ⟨n, hn, rfl⟩, rfl⟩
  · refine SortedMap.keys_eq fun key => ?_
    rw [h.mem_edge_keys]
    simp only [(edgeMentions_perm hperm).mem_iff, edgeMentions_statements, List.mem_map, exists_exists_and_eq_and]
    constructor
    · rintro ⟨key, hkey, rfl⟩
      exact hkey
    · exact fun hkey => ⟨key, hkey, rfl⟩

end Graph

section
variable {c : Digraph.Contents} {defaultName : String} {d : Document} (hdocument : c.document defaultName = .ok d)
include hdocument

/-- What is read of a digraph is nodes whose names are not those of default clauses, and edges. -/
theorem Digraph.statement_cases : ∀ s ∈ d.statements,
    (∃ n, s = .node { name := n } ∧ n ∉ defaultWords) ∨ ∃ key : EdgeKey, s = key.statement := by
  obtain ⟨name, nodes, edges, -, hnodes, hedges, rfl⟩ := eq_of_document hdocument
  intro s hs
  rcases List.mem_append.mp hs with hs | hs
  · obtain ⟨node, -, hnode⟩ := Run.exists_of_mem_mapM hnodes hs
    obtain ⟨n, -, hnode⟩ := Run.except_bind_eq_ok_iff.mp hnode
    dsimp only at hnode
    rw [Run.ite_throw_eq_ok_iff, Run.ite_throw_eq_ok_iff] at hnode
    obtain ⟨hn, -, hnode⟩ := hnode
    cases hnode
    exact Or.inl ⟨n, rfl, hn⟩
  · obtain ⟨edge, -, hedge⟩ := Run.exists_of_mem_mapM hedges hs
    obtain ⟨source, -, hedge⟩ := Run.except_bind_eq_ok_iff.mp hedge
    obtain ⟨target, -, hedge⟩ := Run.except_bind_eq_ok_iff.mp hedge
    dsimp only at hedge
    rw [Run.ite_throw_eq_ok_iff] at hedge
    cases hedge.2
    exact Or.inr ⟨⟨source, target⟩, rfl⟩

/-- No node without edges has the name of a default clause. -/
theorem Digraph.not_mem_defaultWords_of_built {renameMethods : Bool} {g : Graph}
    (h : Built renameMethods d.statements g) {n : String} (hn : n ∈ g.nodes.keys)
    (hisolated : ∀ key ∈ g.edges.keys, key.source ≠ n ∧ key.target ≠ n) : n ∉ defaultWords := by
  obtain ⟨r, hr, rfl⟩ := (h.mem_node_keys n).mp hn
  obtain ⟨s, hs, hr⟩ := (mem_mentions_refs d.statements r).mp hr
  rcases statement_cases hdocument s hs with ⟨n, rfl, hn⟩ | ⟨key, rfl⟩
  · rw [List.mem_singleton.mp hr]
    exact hn
  · have hmention : key.mention ∈ edgeMentions d.statements := by
      obtain ⟨front, behind, hsplit⟩ := List.append_of_mem hs
      rw [hsplit, edgeMentions_append]
      exact List.mem_append_right _ List.mem_cons_self
    obtain ⟨hsource, htarget⟩ := hisolated key ((h.mem_edge_keys key).mpr ⟨_, hmention, rfl⟩)
    rcases List.mem_pair.mp hr with rfl | rfl
    · exact absurd rfl hsource
    · exact absurd rfl htarget

end

/-! ## Reading -/

namespace Digraph

/-- The name has no marker, and nothing else in it is a `#`. -/
def Unmarked (n : String) : Prop := '#' ∉ n.toList

theorem not_mem_of_isId {raw : String} (h : IsId raw) : '#' ∉ raw.toList := fun hmem => absurd (h '#' hmem) (by decide)

theorem mem_of_mem_unquote {c : Char} {cs : List Char} (h : c ∈ unquote cs) : c ∈ cs := by
  unfold unquote at h
  split at h
  · split at h
    · exact List.mem_cons_of_mem _ (List.dropLast_subset _ h)
    · exact h
  · exact h

/-- What is read of a word is not raw. -/
theorem unmarked_canonicalName {raw n : String} (hraw : IsId raw) (h : canonicalName raw = .ok n) : Unmarked n := by
  have hunquote : '#' ∉ (String.ofList (unquote raw.toList)).toList := by
    rw [String.toList_ofList]
    exact fun hmem => not_mem_of_isId hraw (mem_of_mem_unquote hmem)
  have hmarker := Identifier.not_raw_of_not_mem hunquote
  unfold canonicalName at h
  dsimp only at h
  split at h
  · cases h
  · split at h
    · cases h
    · have hcanonical := Run.eq_ok_of_mapError h
      rcases Identifier.canonical_of_not_raw hmarker with hok | ⟨cause, hcause⟩
      · rw [hok] at hcanonical
        cases hcanonical
        exact hunquote
      · rw [hcause] at hcanonical
        cases hcanonical

theorem unmarked_clean {e : Endpoint} {n : String} (he : e.NamedBy IsId) (h : e.clean = .ok n) : Unmarked n := by
  cases e with
  | node raw => exact unmarked_canonicalName he h
  | group => cases h

end Digraph

section
variable {library : Digraph.Library} (hlibrary : library.ReadsUnquoted) {src : Source} {g : Graph} {n : String}
  {d : Document} (hclosed : g.Closed) (hn : IsAsciiName n) (hnames : ∀ x ∈ g.nodes.keys, IsAsciiName x)
  (htext : src.text = g.toDot n) (h : src.parseDigraph defaultMachineName library = .ok d)
include hlibrary hclosed hn hnames htext h

/-- A digraph that is read has no raw name. -/
theorem Source.not_raw_of_parseDigraph : Identifier.isRaw n = false := by
  rw [← Bool.not_eq_true]
  intro hraw
  obtain ⟨c, hread, -⟩ := exists_contents h
  rw [htext] at hread
  cases hlibrary.comments _ _ (Digraph.unquoted_toDot hclosed hnames hn) hread
    (Digraph.opensNothing_toDot hclosed hnames hn hraw)

/-- There are no raw nodes in what is read of a digraph. -/
theorem Source.unmarked_of_parseDigraph : ∀ s ∈ d.statements, s.NamedBy Digraph.Unmarked fun _ => False := by
  obtain ⟨c, hread, hdocument⟩ := exists_contents h
  rw [htext] at hread
  have hids := hlibrary.words _ _ (Digraph.unquoted_toDot hclosed hnames hn) hread c (List.mem_singleton.mpr rfl)
  exact Digraph.namedBy_document hdocument (fun node hnode _ => Digraph.unmarked_canonicalName (hids.nodes node hnode))
    fun edge hedge => ⟨fun _ => Digraph.unmarked_clean (hids.edges edge hedge).1,
      fun _ => Digraph.unmarked_clean (hids.edges edge hedge).2⟩

end

/-- **Reading.** The digraph of a graph whose names are plain is a machine of the same nodes and edges if and only if
its names are canonical. -/
theorem Source.parseDigraph_toDot {library : Digraph.Library} (hlibrary : library.ReadsTrails) {src : Source}
    {g : Graph} (hclosed : g.Closed) (n : PlainName) (hplain : ∀ x ∈ g.nodes.keys, IsPlain x)
    (hcanonical : ∀ x ∈ g.nodes.keys, Identifier.canonical x = .ok x) (htext : src.text = g.toDot n.text) :
    match src.parseDigraph defaultMachineName library with
    | .ok d => (∃ statements, d = { name := n.text, statements } ∧ statements.Perm g.statements) ∧ n.IsCanonical
    | .error _ => ¬ n.IsCanonical := by
  have hstrokes : ∀ s ∈ g.strokes, ∀ x ∈ s.names, IsPlain x := fun s hs x hx =>
    hplain x (Digraph.names_strokes hclosed s hs x hx)
  have hlaid : LaidOut (Digraph.graphWords n (strokeTrails g.strokes hstrokes)) src.text.toList := by
    rw [htext]
    exact Digraph.laidOut_toDot n hstrokes
  have htrails : ∀ t ∈ strokeTrails g.strokes hstrokes, t.IsCanonical :=
    (isCanonical_strokeTrails_iff hstrokes).mpr fun s hs x hx =>
      hcanonical x (Digraph.names_strokes hclosed s hs x hx)
  have hreading := parseDigraph_trails hlibrary hlaid
  rwa [parts_strokeTrails, Graph.map_statement_strokes, and_iff_left htrails] at hreading

end Typestate
