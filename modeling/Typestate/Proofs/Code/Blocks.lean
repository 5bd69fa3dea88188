import Typestate.Code.EntryApi
import Typestate.Code.Printer

/-!
The texts of generated items. A variant is documentation and a line with its payload in parentheses, and
an implementation for a connector is a row of methods, each of which matches on the state and expects the
variant of one node (`implements_accessors`, `implements_asRef`, `implements_asMut`,
`implements_transition`).
-/

namespace Typestate.Code

/-- The body of the item consists of the lines. -/
def Item.HasLines (i : Item) (lines : List String) : Prop := i.body = String.intercalate "\n" lines

/-- A text in parentheses, if there is one. -/
def inParens : Option String → String
  | some text => "(" ++ text ++ ")"
  | none => ""

/-! ## Documentation -/

/-- The line documents what stands behind it, as a comment or as an attribute. -/
def Documents (line : String) : Prop :=
  (∃ text, line = "    ///" ++ text) ∨ ∃ text, line = "    #[doc = " ++ text ++ "]"

theorem documents_docComment (fragment : String) : Documents (docComment "    " fragment) := by
  unfold docComment
  split
  · exact Or.inr ⟨_, rfl⟩
  · exact Or.inl ⟨_, rfl⟩

/-- Lines of documentation. -/
structure Documentation where
  lines : List String
  documents : ∀ line ∈ lines, Documents line

namespace Documentation

def ofDocs (docs : List String) : Documentation where
  lines := docComments docs "    "
  documents := by
    intro line hline
    obtain ⟨fragment, -, rfl⟩ := List.mem_map.mp hline
    exact documents_docComment fragment

/-- What an accessor does with the payload of a node. -/
def ofAccessor (api : Api) (node verb : String) : Documentation where
  lines := [accessorDoc api node verb]
  documents := by
    intro line hline
    rw [List.mem_singleton.mp hline]
    exact Or.inl ⟨" " ++ verb ++ " the data stored in [`" ++ api.variant node ++ "`]", by
      simp only [accessorDoc, ← String.append_assoc]
      rfl⟩

end Documentation

/-! ## Variants and arms -/

/-- What an entry variant wraps: nothing, a reference to the payload, or the connector of its node. -/
def Access.wrapped (api : Api) (node : String) : Access → Option String
  | nothing => none
  | payload ty => some ("&" ++ entryLifetime ++ " mut " ++ ty)
  | connector => some (api.connectorType node)

/-- What stands for the payload in the pattern of an arm. -/
def PayloadPattern.binder : PayloadPattern → Option String
  | absent => none
  | ignored => some "_"
  | bound => some "it"

/-- What an arm makes the entry variant of: nothing, the payload that it bound, or a connector. -/
def EntryArgument.value (node : String) : EntryArgument → Option String
  | absent => none
  | bound => some "it"
  | connector => some (node ++ "(value)")

theorem StateVariant.lines_eq (v : StateVariant) :
    v.lines = (Documentation.ofDocs v.docs).lines ++ ["    " ++ v.node ++ inParens v.payload ++ ","] := by
  unfold lines
  cases v.payload <;> simp [Documentation.ofDocs, inParens, String.append_assoc]

theorem EntryVariant.lines_eq (api : Api) (v : EntryVariant) :
    v.lines api = (Documentation.ofDocs v.docs).lines ++
      ["    " ++ v.node ++ inParens (v.access.wrapped api v.node) ++ ","] := by
  unfold lines
  cases v.access with
  | nothing => simp [Documentation.ofDocs, Access.wrapped, inParens]
  | payload ty =>
    have hopen : ∀ text : String, "(&" ++ text = "(" ++ ("&" ++ text) := fun text => by
      rw [← String.append_assoc]
      rfl
    simp [Documentation.ofDocs, Access.wrapped, inParens, String.append_assoc, hopen]
  | connector => simp [Documentation.ofDocs, Access.wrapped, inParens, String.append_assoc]

theorem ConversionArm.line_eq (api : Api) (a : ConversionArm) :
    a.line api = "            " ++ api.variant a.node ++ inParens a.pattern.binder ++ " => " ++
      api.entry ++ "::" ++ a.node ++ inParens (a.argument.value a.node) ++ "," := by
  unfold line
  cases a.pattern <;> cases a.argument <;>
    simp [PayloadPattern.binder, EntryArgument.value, inParens, String.append_assoc]

/-! ## Methods -/

/-- The arm of a match on the state that expects a node: it gives the payload, if there is one. -/
def Api.expecting (api : Api) (node : String) : Option String → String
  | some _ => api.variant node ++ "(it) => it,"
  | none => api.variant node ++ " => \x7b\x7d"

/-- A method of a connector. It looks at the state and has an arm for what it expects there. -/
structure Method where
  docs : Documentation
  signature : String
  scrutinee : String
  arm : String

def Method.lines (api : Api) (m : Method) : List String :=
  m.docs.lines ++ [
    "    " ++ m.signature ++ " \x7b",
    "        match " ++ m.scrutinee ++ " \x7b",
    "            " ++ m.arm,
    "            _ => " ++ api.mismatch ++ ",",
    "        \x7d",
    "    \x7d"]

/-- The item is an implementation that starts with a line and has the methods and nothing else. -/
def Item.Implements (i : Item) (api : Api) (opening : String) (methods : List Method) : Prop :=
  i.HasLines (opening :: methods.flatMap (·.lines api) ++ ["\x7d"])

/-- A method that gets at the payload of a node. -/
def Method.accessor (api : Api) (node ty : String) (docs : Documentation)
    (signature scrutinee : String) : Method :=
  { docs, signature, scrutinee, arm := api.expecting node (some ty) }

/-- The method of a transition: it takes the payload of the target and gives that of the source. -/
def Method.transition (api : Api) (t : Transition) (docs : Documentation) : Method where
  docs
  signature := "pub fn " ++ t.method ++ "(" ++ t.takes.elim "self" ("self, next: " ++ ·) ++ ")" ++
    t.returns.elim "" (" -> " ++ ·)
  scrutinee := api.core ++ "::mem::replace(self.0, " ++
    (api.variant t.target ++ inParens (t.takes.map fun _ => "next")) ++ ")"
  arm := api.expecting t.source t.returns

theorem lines_accessor (api : Api) (node ty : String) (docs : Documentation)
    (signature scrutinee : String) :
    (Method.accessor api node ty docs signature scrutinee).lines api =
      docs.lines ++ accessorLines api node signature scrutinee := by
  have harm : "        " ++ "    " ++ (api.variant node ++ "(it) => it") ++ "," =
      "            " ++ (api.variant node ++ "(it) => it,") := by
    rw [String.append_assoc, @String.append_assoc (api.variant node)]
    rfl
  unfold accessorLines matchLines
  rw [harm]
  rfl

namespace Declaration

theorem implements_of_lines {api : Api} {d : Declaration} {opening : String} {methods : List Method}
    (h : d.lines api = opening :: methods.flatMap (·.lines api) ++ ["\x7d"]) :
    (item api d).Implements api opening methods := congrArg (String.intercalate "\n") h

variable (api : Api) (node ty : String)

theorem lines_accessors (names : AccessorNames) : (Declaration.accessors node ty names).lines api =
    api.openingImpl (api.connectorType node) ::
      [Method.accessor api node ty (.ofAccessor api node "Borrow")
        ("pub fn " ++ names.get ++ "(&self) -> &" ++ ty) "&self.0",
      .accessor api node ty (.ofAccessor api node "Mutably borrow")
        ("pub fn " ++ names.getMut ++ "(&mut self) -> &mut " ++ ty) "&mut self.0"].flatMap
          (·.lines api) ++ ["\x7d"] := by
  simp only [List.flatMap_cons, List.flatMap_nil, lines_accessor]
  rfl

theorem lines_asRef : (Declaration.asRef node ty).lines api =
    api.openingTraitImpl ("AsRef<" ++ ty ++ ">") (api.connectorType node) ::
      [Method.accessor api node ty ⟨[], nofun⟩ ("fn as_ref(&self) -> &" ++ ty) "&self.0"].flatMap
        (·.lines api) ++ ["\x7d"] := by
  simp only [List.flatMap_cons, List.flatMap_nil, lines_accessor]
  rfl

theorem lines_asMut : (Declaration.asMut node ty).lines api =
    api.openingTraitImpl ("AsMut<" ++ ty ++ ">") (api.connectorType node) ::
      [Method.accessor api node ty ⟨[], nofun⟩ ("fn as_mut(&mut self) -> &mut " ++ ty)
        "&mut self.0"].flatMap (·.lines api) ++ ["\x7d"] := by
  simp only [List.flatMap_cons, List.flatMap_nil, lines_accessor]
  rfl

theorem lines_transition (t : Transition) : (Declaration.transition t).lines api =
    api.openingImpl (api.connectorType t.source) ::
      [Method.transition api t (.ofDocs ((if t.docs.isEmpty then [] else t.docs ++ [""]) ++
        [" Transition to [`" ++ api.variant t.target ++ "`]"]))].flatMap (·.lines api) ++
          ["\x7d"] := by
  have hheader : ∀ parameters result : String,
      "    " ++ ("pub fn " ++ t.method ++ "(" ++ parameters ++ ")" ++ result) ++ " \x7b" =
        "    pub fn " ++ t.method ++ "(" ++ parameters ++ ")" ++ result ++ " \x7b" := by
    intro parameters result
    simp only [← String.append_assoc]
    rfl
  have hreplace : ∀ replacement : String,
      "        match " ++ (api.core ++ "::mem::replace(self.0, " ++ replacement ++ ")") ++ " \x7b" =
        "        match " ++ api.core ++ "::mem::replace(self.0, " ++ replacement ++ ") \x7b" := by
    intro replacement
    simp [String.append_assoc]
  simp only [List.flatMap_cons, List.flatMap_nil, List.append_nil, Method.lines, Method.transition,
    hheader, hreplace, lines, Transition.lines, Documentation.ofDocs]
  cases t.takes <;> cases t.returns <;> simp [Api.expecting, inParens]

theorem implements_accessors (names : AccessorNames) :
    (item api (.accessors node ty names)).Implements api (api.openingImpl (api.connectorType node))
      [.accessor api node ty (.ofAccessor api node "Borrow")
        ("pub fn " ++ names.get ++ "(&self) -> &" ++ ty) "&self.0",
      .accessor api node ty (.ofAccessor api node "Mutably borrow")
        ("pub fn " ++ names.getMut ++ "(&mut self) -> &mut " ++ ty) "&mut self.0"] :=
  implements_of_lines (lines_accessors api node ty names)

theorem implements_asRef : (item api (.asRef node ty)).Implements api
    (api.openingTraitImpl ("AsRef<" ++ ty ++ ">") (api.connectorType node))
    [.accessor api node ty ⟨[], nofun⟩ ("fn as_ref(&self) -> &" ++ ty) "&self.0"] :=
  implements_of_lines (lines_asRef api node ty)

theorem implements_asMut : (item api (.asMut node ty)).Implements api
    (api.openingTraitImpl ("AsMut<" ++ ty ++ ">") (api.connectorType node))
    [.accessor api node ty ⟨[], nofun⟩ ("fn as_mut(&mut self) -> &mut " ++ ty) "&mut self.0"] :=
  implements_of_lines (lines_asMut api node ty)

theorem implements_transition (t : Transition) :
    (item api (.transition t)).Implements api (api.openingImpl (api.connectorType t.source))
      [.transition api t (.ofDocs ((if t.docs.isEmpty then [] else t.docs ++ [""]) ++
        [" Transition to [`" ++ api.variant t.target ++ "`]"]))] :=
  implements_of_lines (lines_transition api t)

end Declaration

end Typestate.Code
