import Typestate.Proofs.Machine.Generate

/-!
What trust does to the source of a machine. Whether a state that the code was not made for is met with a
panic or with undefined behaviour is seen in the last arms of the matches on the states of connectors, and
nowhere else: there is one such match in a transition, in `as_ref` and in `as_mut`, and there are two in the
accessors of a payload (`Machine.generate_trusting`).
-/

namespace Typestate

namespace Code

/-! ## Lines -/

/-- The line opens a match on the state that a connector holds. -/
def OpensMatch (line : String) : Prop :=
  ∃ indent before after, line = String.ofList (List.replicate indent ' ') ++
    ("match " ++ before ++ "self.0" ++ after ++ " \x7b")

/-- The first character of a line that is not a space. -/
def firstMark (line : String) : Option Char := (line.toList.dropWhile (· == ' ')).head?

theorem OpensMatch.firstMark_eq {line : String} (h : OpensMatch line) : firstMark line = some 'm' := by
  obtain ⟨indent, before, after, rfl⟩ := h
  simp [firstMark, String.toList_append]

theorem not_opensMatch {line : String} {c : Char} (hmark : firstMark line = some c) (hc : c ≠ 'm') :
    ¬OpensMatch line := by
  intro h
  rw [h.firstMark_eq] at hmark
  exact hc (Option.some.inj hmark).symm

theorem Documents.not_opensMatch {line : String} (h : Documents line) : ¬OpensMatch line := by
  rcases h with ⟨text, rfl⟩ | ⟨text, rfl⟩
  · exact Code.not_opensMatch (c := '/') (by simp [firstMark, String.toList_append]) (by decide)
  · exact Code.not_opensMatch (c := '#') (by simp [firstMark, String.toList_append]) (by decide)

/-- The arm for all states that a method was not made for. -/
def mismatchArm (reaction : String) : String := "            _ => " ++ reaction ++ ","

/-- The lines are the same but for the last arms of the matches on the states of connectors: there one
reaction stands in the first list and the other one in the second. The number is that of the matches. -/
inductive ArmsApart (reaction reaction' : String) : Nat → List String → List String → Prop
  | nil : ArmsApart reaction reaction' 0 [] []
  | line {n : Nat} {line : String} {lines lines' : List String} (h : ¬OpensMatch line)
    (rest : ArmsApart reaction reaction' n lines lines') :
    ArmsApart reaction reaction' n (line :: lines) (line :: lines')
  | arms {n : Nat} {opening expected : String} {lines lines' : List String} (h : OpensMatch opening)
    (rest : ArmsApart reaction reaction' n lines lines') :
    ArmsApart reaction reaction' (n + 1)
      (opening :: expected :: mismatchArm reaction :: "        \x7d" :: lines)
      (opening :: expected :: mismatchArm reaction' :: "        \x7d" :: lines')

namespace ArmsApart

variable {reaction reaction' : String} {n n' : Nat} {lines lines' rest rest' : List String}

theorem append (h : ArmsApart reaction reaction' n lines lines')
    (hrest : ArmsApart reaction reaction' n' rest rest') :
    ArmsApart reaction reaction' (n + n') (lines ++ rest) (lines' ++ rest') := by
  induction h with
  | nil => rwa [Nat.zero_add]
  | line hline _ ih => exact .line hline ih
  | arms hopening _ ih =>
    rw [Nat.add_right_comm]
    exact .arms hopening ih

theorem of_eq (h : ∀ line ∈ lines, ¬OpensMatch line) : ArmsApart reaction reaction' 0 lines lines := by
  induction lines with
  | nil => exact .nil
  | cons line lines ih =>
    obtain ⟨hline, hlines⟩ := List.forall_mem_cons.mp h
    exact .line hline (ih hlines)

end ArmsApart

/-! ## Methods -/

/-- The method looks at the state that its connector holds. -/
structure Method.Looks (m : Method) : Prop where
  signature : ¬OpensMatch ("    " ++ m.signature ++ " \x7b")
  scrutinee : OpensMatch ("        match " ++ m.scrutinee ++ " \x7b")

/-- The lines of a method, with one reaction and with another one to a state that it was not made for. -/
theorem Method.Looks.armsApart {m : Method} (h : m.Looks) (api api' : Api) :
    ArmsApart api.mismatch api'.mismatch 1 (m.lines api) (m.lines api') := by
  have hclosing : ¬OpensMatch "    \x7d" := not_opensMatch (c := '\x7d') (by decide) (by decide)
  exact (ArmsApart.of_eq fun line hline => (m.docs.documents line hline).not_opensMatch).append
    (n := 0) (.line h.signature (.arms h.scrutinee (.line hclosing .nil)))

/-- Methods that look at states, between the line that starts their implementation and its last line. -/
theorem armsApart_implementation {n : Nat} {opening : String} {methods : List Method}
    (hn : methods.length = n) (hopening : ¬OpensMatch opening) (h : ∀ m ∈ methods, m.Looks)
    (api api' : Api) :
    ArmsApart api.mismatch api'.mismatch n
      (opening :: methods.flatMap (·.lines api) ++ ["\x7d"])
      (opening :: methods.flatMap (·.lines api') ++ ["\x7d"]) := by
  have hlast : ¬OpensMatch "\x7d" := not_opensMatch (c := '\x7d') (by decide) (by decide)
  have hmethods : ArmsApart api.mismatch api'.mismatch n (methods.flatMap (·.lines api))
      (methods.flatMap (·.lines api')) := by
    induction methods generalizing n with
    | nil =>
      rw [← hn]
      exact .nil
    | cons m methods ih =>
      obtain ⟨hm, hmethods⟩ := List.forall_mem_cons.mp h
      rw [← hn, List.length_cons, Nat.add_comm, List.flatMap_cons, List.flatMap_cons]
      exact (hm.armsApart api api').append (ih rfl hmethods)
  have hend : ArmsApart api.mismatch api'.mismatch 0 ["\x7d"] ["\x7d"] := .line hlast .nil
  exact (ArmsApart.line hopening hmethods).append hend

theorem not_opensMatch_openingImpl (api : Api) (target : String) :
    ¬OpensMatch (api.openingImpl target) := by
  refine not_opensMatch (c := 'i') ?_ (by decide)
  unfold Api.openingImpl Api.opening
  split <;> simp [firstMark, String.toList_append]

theorem looks_accessor (api : Api) (node ty : String) (docs : Documentation) {signature scrutinee : String}
    {c : Char} (hsignature : firstMark ("    " ++ signature ++ " \x7b") = some c) (hc : c ≠ 'm')
    (hscrutinee : ∃ before, scrutinee = before ++ "self.0") :
    (Method.accessor api node ty docs signature scrutinee).Looks where
  signature := not_opensMatch hsignature hc
  scrutinee := by
    obtain ⟨before, rfl⟩ := hscrutinee
    exact ⟨8, before, "", by
      rw [← String.toList_inj]
      simp [Method.accessor, String.toList_append]⟩

theorem looks_transition (api : Api) (t : Transition) (docs : Documentation) :
    (Method.transition api t docs).Looks where
  signature :=
    not_opensMatch (c := 'p') (by simp [firstMark, Method.transition, String.toList_append]) (by decide)
  scrutinee := ⟨8, api.core ++ "::mem::replace(",
    ", " ++ (api.variant t.target ++ inParens (t.takes.map fun _ => "next")) ++ ")", by
      rw [← String.toList_inj]
      simp [Method.transition, String.toList_append]⟩

/-! ## Parts -/

/-- The names and texts of a machine, with this trust. -/
def Api.trusting (api : Api) (trust : Trust) : Api := { api with trust }

section
variable (api : Api) (trust : Trust)

@[simp] theorem Api.variant_trusting (node : String) :
    (api.trusting trust).variant node = api.variant node := rfl

@[simp] theorem Api.connectorType_trusting (node : String) :
    (api.trusting trust).connectorType node = api.connectorType node := rfl

@[simp] theorem Api.openingImpl_trusting (target : String) :
    (api.trusting trust).openingImpl target = api.openingImpl target := rfl

@[simp] theorem Api.openingTraitImpl_trusting (trait target : String) :
    (api.trusting trust).openingTraitImpl trait target = api.openingTraitImpl trait target := rfl

@[simp] theorem Documentation.ofAccessor_trusting (node verb : String) :
    Documentation.ofAccessor (api.trusting trust) node verb = .ofAccessor api node verb := rfl

@[simp] theorem Method.accessor_trusting (node ty : String) (docs : Documentation)
    (signature scrutinee : String) :
    Method.accessor (api.trusting trust) node ty docs signature scrutinee =
      .accessor api node ty docs signature scrutinee := rfl

@[simp] theorem Method.transition_trusting (t : Transition) (docs : Documentation) :
    Method.transition (api.trusting trust) t docs = .transition api t docs := rfl

end

/-- How many matches on the state of a connector there are in what is generated for a part. -/
def Part.matches : Part → Nat
  | accessors .. => 2
  | asRef .. | asMut .. | transition .. => 1
  | _ => 0

/-- An implementation for a connector, with one trust and with another one. -/
theorem Part.armsApart (api : Api) (d : Document) (entryDocs : List String) (g : Graph) {part : Part}
    (howner : part.owner? ≠ none) (trust trust' : Trust) :
    ArmsApart (api.trusting trust).mismatch (api.trusting trust').mismatch part.matches
      ((part.declaration d entryDocs g).lines (api.trusting trust))
      ((part.declaration d entryDocs g).lines (api.trusting trust')) := by
  cases part with
  | stateEnum | entryEnum | conversion | entryMethod | connector => exact absurd rfl howner
  | accessors node ty =>
    rw [Part.declaration, Declaration.lines_accessors, Declaration.lines_accessors]
    simp only [Api.openingImpl_trusting, Api.connectorType_trusting, Method.accessor_trusting,
      Documentation.ofAccessor_trusting]
    refine armsApart_implementation ?hn (not_opensMatch_openingImpl api _) ?_ _ _
    case hn => rfl
    refine List.forall_mem_cons.mpr ⟨?_, List.forall_mem_singleton.mpr ?_⟩
    · exact looks_accessor api node ty _ (c := 'p') (by simp [firstMark, String.toList_append]) (by decide)
        ⟨"&", rfl⟩
    · exact looks_accessor api node ty _ (c := 'p') (by simp [firstMark, String.toList_append]) (by decide)
        ⟨"&mut ", rfl⟩
  | asRef node ty =>
    rw [Part.declaration, Declaration.lines_asRef, Declaration.lines_asRef]
    simp only [Api.openingTraitImpl_trusting, Api.connectorType_trusting, Method.accessor_trusting]
    refine armsApart_implementation ?hn (not_opensMatch_openingImpl api _) ?_ _ _
    case hn => rfl
    exact List.forall_mem_singleton.mpr (looks_accessor api node ty _ (c := 'f')
      (by simp [firstMark, String.toList_append]) (by decide) ⟨"&", rfl⟩)
  | asMut node ty =>
    rw [Part.declaration, Declaration.lines_asMut, Declaration.lines_asMut]
    simp only [Api.openingTraitImpl_trusting, Api.connectorType_trusting, Method.accessor_trusting]
    refine armsApart_implementation ?hn (not_opensMatch_openingImpl api _) ?_ _ _
    case hn => rfl
    exact List.forall_mem_singleton.mpr (looks_accessor api node ty _ (c := 'f')
      (by simp [firstMark, String.toList_append]) (by decide) ⟨"&mut ", rfl⟩)
  | transition key e =>
    rw [Part.declaration, Declaration.lines_transition, Declaration.lines_transition]
    simp only [Api.openingImpl_trusting, Api.connectorType_trusting, Api.variant_trusting,
      Method.transition_trusting]
    refine armsApart_implementation ?hn (not_opensMatch_openingImpl api _) ?_ _ _
    case hn => rfl
    exact List.forall_mem_singleton.mpr (looks_transition api _ _)

/-- What is not for one connector is written without regard to trust. -/
theorem Part.lines_trusting (api : Api) (d : Document) (entryDocs : List String) (g : Graph) {part : Part}
    (howner : part.owner? = none) (trust : Trust) :
    (part.declaration d entryDocs g).lines (api.trusting trust) =
      (part.declaration d entryDocs g).lines api := by
  cases part with
  | stateEnum | entryEnum | conversion | entryMethod | connector => rfl
  | accessors | asRef | asMut | transition => cases howner

theorem Part.docs_trusting (api : Api) (d : Document) (entryDocs : List String) (g : Graph) (part : Part)
    (trust : Trust) : (part.declaration d entryDocs g).docs (api.trusting trust) =
      (part.declaration d entryDocs g).docs api := by
  cases part <;> rfl

end Code

/-! ## Generating -/

namespace Machine

variable {m : Machine} {renderer : Renderer} {noted : List Event}

/-- The machine, if its document had this trust. -/
def trusting (m : Machine) (trust : Trust) : Machine :=
  { m with document := { m.document with config := { m.document.config with trust } } }

theorem ofDocument_trusting {api : Code.Api} (h : Code.Api.ofDocument m.document = .ok api) :
    api.core = m.document.config.pathToCore ∧
    ∀ trust, Code.Api.ofDocument (m.trusting trust).document = .ok (api.trusting trust) := by
  unfold Code.Api.ofDocument at h
  cases hparams : Code.parametersOf m.document.generics with
  | error f =>
    rw [hparams] at h
    cases h
  | ok params =>
    rw [hparams] at h
    cases h
    refine ⟨rfl, fun trust => ?_⟩
    have hsame : (m.trusting trust).document.generics = m.document.generics := rfl
    unfold Code.Api.ofDocument
    rw [hsame, hparams]
    rfl

theorem declaration_trusting (m : Machine) (trust : Trust) (entryDocs : List String) (part : Code.Part) :
    part.declaration (m.trusting trust).document entryDocs m.graph =
      part.declaration m.document entryDocs m.graph := by
  cases part <;> rfl

theorem generate_trusting_eq {api : Code.Api} {docs : List String} {noted₁ : List Event}
    (hclosed : m.graph.Closed) (hdocs : m.mermaidDocs renderer noted = .ok docs noted₁) (trust : Trust)
    (hapi : Code.Api.ofDocument (m.trusting trust).document = .ok (api.trusting trust)) :
    (m.trusting trust).generate renderer noted = .ok ⟨m.graph.parts.map fun part =>
      (part.declaration m.document (Code.entryDocs m.document.name ++ docs) m.graph).item
        (api.trusting trust)⟩ (noted₁ ++ [.generated m.graph.parts.length m.document.name]) := by
  refine (generate_eq (m := m.trusting trust) hclosed hapi hdocs).trans ?_
  simp only [← declaration_trusting m trust]
  rfl

/-- **Trust.** For every machine that was loaded, the same items are generated with the one trust as with
the other, but for the last arms of the matches on the states of connectors: each of these panics if states
are checked and is undefined behaviour if they are trusted. -/
theorem generate_trusting {src : Source} {language : Language} {overrides : Overrides}
    {events events' : List Event} (hload : load src language overrides events = .ok m events')
    (hrenderer : m.DrawnBy renderer noted) : ∃ (declaration : Code.Part → Code.Declaration)
      (api : Trust → Code.Api) (noted' : List Event),
      (∀ trust, Code.Api.ofDocument (m.trusting trust).document = .ok (api trust) ∧
        (m.trusting trust).generate renderer noted =
          .ok ⟨m.graph.parts.map fun part => (declaration part).item (api trust)⟩ noted') ∧
      ∀ part ∈ m.graph.parts,
        let checked := (declaration part).item (api .checked)
        let trusted := (declaration part).item (api .trusted)
        part.Makes (api .checked) m.graph checked ∧ part.Makes (api .trusted) m.graph trusted ∧
        checked.docs = trusted.docs ∧ checked.attrs = trusted.attrs ∧
        (part.owner? = none → checked.body = trusted.body) ∧
        (part.owner? ≠ none → ∃ lines lines', checked.HasLines lines ∧ trusted.HasLines lines' ∧
          Code.ArmsApart
            (m.document.config.pathToCore ++ "::panic!(\"" ++ Code.mismatchMessage ++ "\")")
            ("unsafe \x7b " ++ m.document.config.pathToCore ++ "::hint::unreachable_unchecked() \x7d")
            part.matches lines lines') := by
  obtain ⟨-, -, -, -, hdrawn⟩ := read_of_load hload
  obtain ⟨api, hapi⟩ := exists_ofDocument hload
  obtain ⟨docs, noted₁, hdocs⟩ := exists_mermaidDocs hrenderer
  obtain ⟨hcore, htrusting⟩ := ofDocument_trusting hapi
  have hclosed := hdrawn.built.closed
  refine ⟨(·.declaration m.document (Code.entryDocs m.document.name ++ docs) m.graph), api.trusting,
    noted₁ ++ [.generated m.graph.parts.length m.document.name], fun trust => ⟨htrusting trust,
      generate_trusting_eq hclosed hdocs trust (htrusting trust)⟩, fun part hpart =>
      ⟨Code.makes_item _ _ _ hclosed hpart, Code.makes_item _ _ _ hclosed hpart, ?_, rfl,
        fun howner => ?_, fun howner => ?_⟩⟩
  · exact (part.docs_trusting api _ _ _ .checked).trans (part.docs_trusting api _ _ _ .trusted).symm
  · exact congrArg (String.intercalate "\n") ((Code.Part.lines_trusting api _ _ _ howner .checked).trans
      (Code.Part.lines_trusting api _ _ _ howner .trusted).symm)
  · rw [← hcore]
    exact ⟨_, _, rfl, rfl, Code.Part.armsApart api _ _ _ howner .checked .trusted⟩

theorem hatch_generate_trusting : ∃ m events, load hatch .machine {} [] = .ok m events ∧
    m.DrawnBy .mermaid [] ∧ ∃ checked trusted noted i i' lines lines',
      (m.trusting .checked).generate .mermaid [] = .ok checked noted ∧ i ∈ checked.items ∧
      (m.trusting .trusted).generate .mermaid [] = .ok trusted noted ∧ i' ∈ trusted.items ∧
      i.HasLines lines ∧ i'.HasLines lines' ∧
      Code.ArmsApart ("::core" ++ "::panic!(\"" ++ Code.mismatchMessage ++ "\")")
        ("unsafe \x7b " ++ "::core" ++ "::hint::unreachable_unchecked() \x7d") 2 lines lines' := by
  obtain ⟨m, events, -, hload, -, hcheck⟩ := exists_load_of_check hatch (fun m _ =>
    m.document.config.pathToCore == "::core" && m.graph.parts.contains (.accessors "Shut" "u8"))
    (by decide +kernel)
  obtain ⟨hcore, hpart⟩ := Bool.and_eq_true_iff.mp hcheck
  have hpart := List.contains_iff_mem.mp hpart
  have hdrawn : m.DrawnBy .mermaid [] := fun _ => ⟨_, _, rfl⟩
  obtain ⟨declaration, api, noted, hgenerate, hparts⟩ := generate_trusting hload hdrawn
  obtain ⟨-, -, -, -, -, harms⟩ := hparts _ hpart
  rw [beq_iff_eq.mp hcore] at harms
  obtain ⟨lines, lines', hlines, hlines', harms⟩ := harms (Option.some_ne_none _)
  exact ⟨m, events, hload, hdrawn, _, _, noted, _, _, lines, lines', (hgenerate .checked).2,
    List.mem_map_of_mem hpart, (hgenerate .trusted).2, List.mem_map_of_mem hpart, hlines, hlines', harms⟩

end Machine

end Typestate
