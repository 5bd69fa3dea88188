import Typestate.Proofs.Code.Inherent
import Typestate.Proofs.Graph.Names
import Typestate.Proofs.Machine.Load

/-!
The inherent methods of the connectors of a machine that was loaded. Their names are different, but a
name and the same name behind a raw marker are one identifier. Whether two methods are one identifier
depends on the arrows that name a method with a marker, and on nothing else
(`Machine.inherentMethods_distinct_iff`).
-/

namespace Typestate

/-! ## Methods of a node -/

variable (statements : List Statement) (source : String)

/-- The name can be that of a method of the node, and it is raw only for a keyword or because an arrow
out of the node has that name. -/
structure MethodWord (name : String) : Prop where
  word : Identifier.IsWord name
  usable : Identifier.Usable name
  origin : Identifier.isRaw name = true → Identifier.withoutRaw name ∈ Identifier.keywords ∨
    ∃ m ∈ edgeMentions statements, m.key.source = source ∧ m.arrow.method? = some name

/-- An arrow out of the node has a raw name, and the name without its marker is that of a method. -/
def RawTwin (methods : List String) : Prop :=
  ∃ m ∈ edgeMentions statements, m.key.source = source ∧ ∃ name, m.arrow.method? = some name ∧
    Identifier.isRaw name = true ∧ Identifier.withoutRaw name ∈ methods

variable {statements source}

theorem methodWord_of_not_mem {name : String} (hhash : '#' ∉ name.toList)
    (husable : Identifier.Usable name) : MethodWord statements source name where
  word := Identifier.isWord_of_not_mem hhash
  usable := husable
  origin hraw := by
    rw [Identifier.isRaw, Identifier.not_raw_of_not_mem hhash] at hraw
    cases hraw

theorem EdgeMention.methodWord
    (hwords : ∀ s ∈ statements, s.NamedBy Identifier.IsWord Identifier.IsWord) {m : EdgeMention}
    (hm : m ∈ edgeMentions statements) (renameMethods : Bool) :
    MethodWord statements m.key.source (m.methodName renameMethods) := by
  obtain ⟨htarget, harrow⟩ := edgeMentions_namedBy hwords hm
  unfold methodName Arrow.methodName
  cases hmethod : m.arrow.method? with
  | none =>
    obtain ⟨hword, hkeyword⟩ := Identifier.methodInto_word htarget renameMethods
    exact ⟨hword, Identifier.usable_escape _, fun hraw => Or.inl (hkeyword hraw)⟩
  | some name =>
    have hname : Identifier.IsWord name := harrow name hmethod
    refine ⟨Identifier.isWord_escape hname, Identifier.usable_escape _, fun hraw => ?_⟩
    rcases Identifier.isRaw_escape hname hraw with ⟨-, hsame⟩ | hkeyword
    · right
      refine ⟨m, hm, rfl, ?_⟩
      rw [hmethod]
      exact congrArg some hsame.symm
    · exact Or.inl hkeyword

/-- Different names that are those of methods of the node are different identifiers, unless an arrow
out of the node makes two of them one. -/
theorem nodup_withoutRaw_iff_not_rawTwin {methods : List String}
    (hwords : ∀ name ∈ methods, MethodWord statements source name) (hnodup : methods.Nodup)
    (harrows : ∀ m ∈ edgeMentions statements, m.key.source = source →
      ∀ name, m.arrow.method? = some name → Identifier.escape name ∈ methods) :
    (methods.map Identifier.withoutRaw).Nodup ↔ ¬ RawTwin statements source methods := by
  rw [Identifier.nodup_withoutRaw_iff (fun name hname => (hwords name hname).word) hnodup]
  constructor
  · rintro hapart ⟨m, hm, hsource, name, hmethod, hraw, hbare⟩
    -- The name is kept as it is, since the bare name is none that cannot be raw.
    have hkept : Identifier.escape name = name := by
      rcases Identifier.escape_of_raw hraw with hsame | hnever
      · exact hsame
      · exact absurd hnever (hwords _ hbare).usable.2
    have hname := harrows m hm hsource name hmethod
    rw [hkept] at hname
    exact hapart name hname hraw hbare
  · intro hno name hname hraw hbare
    rcases (hwords name hname).origin hraw with hkeyword | ⟨m, hm, hsource, hmethod⟩
    · exact (hwords _ hbare).usable.1 hkeyword
    · exact hno ⟨m, hm, hsource, name, hmethod, hraw, hbare⟩

namespace Built

variable {renameMethods : Bool} {g : Graph} (h : Built renameMethods statements g)
include h

theorem methodWord_of_mem_leaving (honce : ((edgeMentions statements).map (·.key)).Nodup)
    (hwords : ∀ s ∈ statements, s.NamedBy Identifier.IsWord Identifier.IsWord)
    {p : String × Edge} (hp : p ∈ g.leaving source) :
    MethodWord statements source p.2.methodName := by
  obtain ⟨m, hm, hkey, hedge⟩ := h.exists_mention honce hp
  have hmethod := EdgeMention.methodWord hwords hm renameMethods
  rw [hkey] at hmethod
  rcases hedge with he | ⟨-, used, he⟩
  · rw [he]
    exact hmethod
  · obtain ⟨hhash, husable⟩ := numbered_word hmethod.word used
    rw [he]
    exact methodWord_of_not_mem hhash husable

/-- A method that an arrow names has that name, escaped. -/
theorem escape_mem_methods (honce : ((edgeMentions statements).map (·.key)).Nodup) {m : EdgeMention}
    (hm : m ∈ edgeMentions statements) {name : String} (hmethod : m.arrow.method? = some name) :
    Identifier.escape name ∈ (g.leaving m.key.source).map (·.2.methodName) := by
  obtain ⟨e, he, hmakes⟩ := h.exists_edge honce hm
  have hmem : (m.key.target, e) ∈ g.leaving m.key.source := (Graph.mem_leaving _ _ _ _).mpr he
  have hdrafted : m.methodName renameMethods = Identifier.escape name := by
    unfold EdgeMention.methodName Arrow.methodName
    rw [hmethod]
  rcases hmakes with rfl | ⟨hderived, -⟩
  · exact List.mem_map.mpr ⟨_, hmem, hdrafted⟩
  · rw [Arrow.isNamed, hmethod] at hderived
    cases hderived

end Built

/-! ## Machines -/

namespace Machine

variable {m : Machine}

theorem nodup_methods (h : m.Drawn) (source : String) :
    ((m.graph.leaving source).map (·.2.methodName)).Nodup := by
  have hclash := (clashFree_iff_namesApart h.buildable.edgesOnce).mpr h.buildable.namesApart
  rw [h.built.leaving]
  exact nodup_settled (hclash source)

/-- The methods of a connector have different names, and each can be the name of a method. -/
theorem inherentMethods_words (h : m.Drawn)
    (hwords : ∀ s ∈ m.document.statements, s.NamedBy Identifier.IsWord Identifier.IsWord)
    {c : PlacedNode} (hc : c ∈ m.graph.placed) : c.inherentMethods.Nodup ∧
      ∀ name ∈ c.inherentMethods, MethodWord m.document.statements c.name name := by
  obtain ⟨⟨node, n⟩, hmem, rfl⟩ := List.mem_map.mp hc
  have hnode : Identifier.IsWord node := h.built.namedBy hwords (List.mem_map_of_mem hmem)
  have hnodup := nodup_methods h node
  have hmethods : ∀ name ∈ (m.graph.leaving node).map (·.2.methodName),
      MethodWord m.document.statements node name := by
    intro name hname
    obtain ⟨p, hp, rfl⟩ := List.mem_map.mp hname
    exact h.built.methodWord_of_mem_leaving h.buildable.edgesOnce hwords hp
  unfold PlacedNode.inherentMethods
  dsimp only
  rw [Graph.methods_neighborhoodAt]
  split
  · refine ⟨Code.nodup_accessorNames_append node hnodup, fun name hname => ?_⟩
    rcases List.mem_append.mp hname with haccessor | hname
    · obtain ⟨hhash, husable⟩ := Code.accessorNames_word hnode _ name haccessor
      exact methodWord_of_not_mem hhash husable
    · exact hmethods name hname
  · exact ⟨hnodup, hmethods⟩

/-- **Distinctness.** Every node of a loaded machine that has a connector gets methods with different
names. They are different identifiers if and only if no arrow out of the node has a raw name that
without its marker is the name of one of the methods. -/
theorem inherentMethods_distinct_iff {src : Source} {overrides : Overrides} {events events' : List Event}
    (h : load src .machine overrides events = .ok m events') :
    ∃ nodes, m.graph.placedNodes = .ok nodes ∧
      ∀ c ∈ nodes, c.neighborhood.hasConnector = true → ∀ docs,
        let methods := Code.inherentMethods (Code.declarations m.document docs nodes) c.name
        methods.Nodup ∧ ((methods.map Identifier.withoutRaw).Nodup ↔
          ¬ RawTwin m.document.statements c.name methods) := by
  obtain ⟨d, hparse, hdocument, hdrawn⟩ := of_load h
  have hwords : ∀ s ∈ m.document.statements, s.NamedBy Identifier.IsWord Identifier.IsWord := by
    have hstatements : m.document.statements = d.statements := by
      rw [hdocument]
      rfl
    rw [hstatements]
    exact Source.parse_words hparse
  refine ⟨m.graph.placed, Graph.placedNodes_eq hdrawn.built.closed, fun c hc hconnector docs => ?_⟩
  have hnames : (m.graph.placed.map (·.name)).Nodup := by
    rw [Graph.placed_names]
    exact SortedMap.nodup_keys _
  obtain ⟨hnodup, hmethods⟩ := inherentMethods_words hdrawn hwords hc
  dsimp only
  rw [Code.inherentMethods_declarations m.document docs hnames hc hconnector]
  refine ⟨hnodup, nodup_withoutRaw_iff_not_rawTwin hmethods hnodup ?_⟩
  rintro e he hsource name hmethod
  have hname := hdrawn.built.escape_mem_methods hdrawn.buildable.edgesOnce he hmethod
  obtain ⟨⟨node, n⟩, -, rfl⟩ := List.mem_map.mp hc
  rw [hsource] at hname
  refine List.mem_append_right _ ?_
  rw [Graph.methods_neighborhoodAt]
  exact hname

/-- A door whose nodes have payloads, and whose arrows have names with and without a marker. -/
def door : Source := { text := "Closed: u8 -r#open-> Open: u8 -get-> Closed;" }

theorem door_inherentMethods_distinct : ∃ m events nodes,
    load door .machine {} [] = .ok m events ∧ m.graph.placedNodes = .ok nodes ∧
      ∃ c ∈ nodes, ∀ docs,
        let methods := Code.inherentMethods (Code.declarations m.document docs nodes) c.name
        methods = ["get_open", "get_open_mut", "get"] ∧ methods.Nodup ∧
          ((methods.map Identifier.withoutRaw).Nodup ↔
            ¬ RawTwin m.document.statements c.name methods) := by
  obtain ⟨m, events, nodes, hload, hnodes, hcheck⟩ := exists_load_of_check door
    (fun m nodes => nodes.any fun c => c.neighborhood.hasConnector &&
      Code.inherentMethods (Code.declarations m.document [] nodes) c.name ==
        ["get_open", "get_open_mut", "get"]) (by decide +kernel)
  obtain ⟨c, hc, hmethods⟩ := List.any_eq_true.mp hcheck
  rw [Bool.and_eq_true, beq_iff_eq] at hmethods
  obtain ⟨nodes', hnodes', hdistinct⟩ := inherentMethods_distinct_iff hload
  rw [hnodes] at hnodes'
  cases hnodes'
  exact ⟨m, events, nodes, hload, hnodes, c, hc, fun docs =>
    ⟨hmethods.2, hdistinct c hc hmethods.1 docs⟩⟩

/-- Two arrows out of one node, with names that differ in the marker alone. -/
def rawTwins : Source := { text := "A -go-> B; A -r#go-> C;" }

theorem rawTwins_inherentMethods : ∃ m events nodes,
    load rawTwins .machine {} [] = .ok m events ∧ m.graph.placedNodes = .ok nodes ∧
      ∃ c ∈ nodes, c.neighborhood.hasConnector = true ∧ ∀ docs,
        let methods := Code.inherentMethods (Code.declarations m.document docs nodes) c.name
        methods = ["go", "r#go"] ∧ ¬ (methods.map Identifier.withoutRaw).Nodup := by
  obtain ⟨m, events, nodes, hload, hnodes, hcheck⟩ := exists_load_of_check rawTwins
    (fun m nodes => nodes.any fun c => c.neighborhood.hasConnector &&
      Code.inherentMethods (Code.declarations m.document [] nodes) c.name == ["go", "r#go"])
    (by decide +kernel)
  obtain ⟨c, hc, hmethods⟩ := List.any_eq_true.mp hcheck
  rw [Bool.and_eq_true, beq_iff_eq] at hmethods
  refine ⟨m, events, nodes, hload, hnodes, c, hc, hmethods.1, fun docs => ⟨hmethods.2, ?_⟩⟩
  change ¬ ((Code.inherentMethods (Code.declarations m.document [] nodes) c.name).map _).Nodup
  rw [hmethods.2]
  decide

end Machine

end Typestate
