import Typestate.Proofs.Machine.Generate

/-!
The lifetime of a handle, next to the parameters of a machine.

The entry enum, the connectors and what is implemented for them hold a reference to the state, and declare its
lifetime in front of the parameters of the machine (`Part.Makes.declaresHandle`). The lifetime has a fixed name,
which is compared with none of theirs: the names of all parameters are different if and only if those of the
machine are and the lifetime is not one of them (`Machine.handleNames_distinct_iff`).
-/

namespace Typestate

namespace Code

/-! ## Declared lists -/

/-- What stands in front of the parameters that a part declares, if it holds a reference to the state. The
state enum does not, and of the implementation for it only a method does. -/
def Part.headline? (api : Api) : Part → Option String
  | stateEnum | entryMethod => none
  | entryEnum => some (visibility api.entryVis ++ "enum " ++ api.entry)
  | connector node => some (visibility api.entryVis ++ "struct " ++ node)
  | conversion | accessors .. | asRef .. | asMut .. | transition .. => some "impl"

/-- The text declares parameters, behind a headline. -/
def Declares (headline : String) (params : List String) (text : String) : Prop :=
  ∃ rest, text = headline ++ declaredParameters params ++ rest

/-- The first of the item's lines declares parameters. -/
def Item.Declares (i : Item) (headline : String) (params : List String) : Prop :=
  ∃ line lines, i.HasLines (line :: lines) ∧ Code.Declares headline params line

variable {api : Api} {g : Graph} {i : Item} {headline : String} {params : List String}

theorem declares_opening {header : String} (h : Declares headline params header) :
    Declares headline params (api.opening header) := by
  obtain ⟨rest, rfl⟩ := h
  unfold Api.opening
  split
  · exact ⟨rest ++ " \x7b", String.append_assoc⟩
  · exact ⟨rest ++ whereClause api.predicates ++ "\n\x7b", by simp only [String.append_assoc]⟩

theorem declares_openingImpl (api : Api) (target : String) :
    Declares "impl" api.entryParams (api.openingImpl target) :=
  declares_opening ⟨" " ++ target, String.append_assoc⟩

/-- What holds a reference to the state declares its lifetime first. -/
theorem Part.Makes.declaresHandle {part : Part} (h : part.Makes api g i)
    (hheadline : part.headline? api = some headline) : i.Declares headline api.entryParams := by
  cases h with
  | stateEnum | entryMethod => cases hheadline
  | entryEnum h =>
    cases hheadline
    exact ⟨_, _, h, declares_opening ⟨"", String.append_empty.symm⟩⟩
  | connector h =>
    cases hheadline
    exact ⟨_, _, h, "(", rfl⟩
  | conversion h | accessors h | asRef h | asMut h | transition _ _ _ h =>
    cases hheadline
    exact ⟨_, _, h, declares_openingImpl api _⟩

/-! ## Names -/

/-- The names of the parameters of a type that holds a reference to the state. -/
def Api.handleNames (api : Api) : List String := api.entryParams.map parameterName

theorem Api.handleNames_eq (api : Api) : api.handleNames = entryLifetime :: api.params.map parameterName := by
  have hlifetime : parameterName entryLifetime = entryLifetime := by decide
  unfold handleNames entryParams
  rw [List.map_cons, hlifetime]

theorem Api.parametersOf_of_ofDocument {d : Document} (h : ofDocument d = .ok api) :
    parametersOf d.generics = .ok api.params := by
  unfold ofDocument at h
  cases hparams : parametersOf d.generics with
  | error f =>
    rw [hparams] at h
    cases h
  | ok params =>
    rw [hparams] at h
    cases h
    rfl

end Code

namespace Machine

variable {m : Machine} {renderer : Renderer} {noted : List Event}

/-- **Lifetimes.** For every machine that was loaded, whatever holds a reference to the state declares the
lifetime of the reference and then the parameters of the machine. Their names are different if and only if the
machine's own ones are different and that lifetime is not among them. -/
theorem handleNames_distinct_iff {src : Source} {language : Language} {overrides : Overrides}
    {events events' : List Event} (hload : load src language overrides events = .ok m events')
    (hrenderer : m.DrawnBy renderer noted) : ∃ api listing noted',
      Code.parametersOf m.document.generics = .ok api.params ∧ m.generate renderer noted = .ok listing noted' ∧
      List.Forall₂ (fun part item => ∀ headline, part.headline? api = some headline →
        item.Declares headline api.entryParams) m.graph.parts listing.items ∧
      (api.handleNames.Nodup ↔ (api.params.map Code.parameterName).Nodup ∧
        Code.entryLifetime ∉ api.params.map Code.parameterName) := by
  obtain ⟨-, -, -, -, hdrawn⟩ := read_of_load hload
  obtain ⟨api, entryDocs, noted', hapi, hgenerate⟩ := exists_generate hload hrenderer
  refine ⟨api, _, noted', Code.Api.parametersOf_of_ofDocument hapi, hgenerate, ?_, ?_⟩
  · rw [List.forall₂_map_right_iff, List.forall₂_same]
    intro part hpart headline hheadline
    exact (Code.makes_item api m.document entryDocs hdrawn.built.closed hpart).declaresHandle hheadline
  · rw [api.handleNames_eq, List.nodup_cons, and_comm]

/-- A reel with a lifetime, a constant and a type as its parameters. -/
def reel : Source :=
  { text := "Reel<'tape, const N: usize, T: Ord = u8> \x7b Wound: [T; N] -> Loose; \x7d" }

theorem reel_handleNames : ∃ m events, load reel .machine {} [] = .ok m events ∧ m.DrawnBy .mermaid [] ∧
    ∃ api listing noted, m.generate .mermaid [] = .ok listing noted ∧
      List.Forall₂ (fun part item => ∀ headline, part.headline? api = some headline →
        item.Declares headline ["'state", "'tape", "const N: usize", "T: Ord = u8"]) m.graph.parts listing.items ∧
      api.handleNames = ["'state", "'tape", "N", "T"] ∧ api.handleNames.Nodup := by
  obtain ⟨m, events, -, hload, -, hcheck⟩ := exists_load_of_check reel (fun m _ =>
    (Code.parametersOf m.document.generics).toOption == some ["'tape", "const N: usize", "T: Ord = u8"])
    (by decide +kernel)
  have hdrawn : m.DrawnBy .mermaid [] := fun _ => ⟨_, _, rfl⟩
  obtain ⟨api, listing, noted, hparams, hgenerate, hdeclares, hdistinct⟩ := handleNames_distinct_iff hload hdrawn
  rw [hparams] at hcheck
  have hown : api.params = ["'tape", "const N: usize", "T: Ord = u8"] := Option.some.inj (beq_iff_eq.mp hcheck)
  have hnames : api.params.map Code.parameterName = ["'tape", "N", "T"] := by
    rw [hown]
    decide
  have hentry : api.entryParams = ["'state", "'tape", "const N: usize", "T: Ord = u8"] :=
    congrArg (Code.entryLifetime :: ·) hown
  rw [hentry] at hdeclares
  refine ⟨m, events, hload, hdrawn, api, listing, noted, hgenerate, hdeclares, ?_, ?_⟩
  · rw [api.handleNames_eq, hnames]
    rfl
  · rw [hdistinct, hnames]
    decide

/-- A machine with a parameter that is called like the lifetime. -/
def stateful : Source := { text := "M<'state> \x7b A -> B; \x7d" }

theorem stateful_handleNames : ∃ m events, load stateful .machine {} [] = .ok m events ∧
    ∃ api listing noted, Code.Api.ofDocument m.document = .ok api ∧ m.generate .mermaid [] = .ok listing noted ∧
      (api.params.map Code.parameterName).Nodup ∧ ¬ api.handleNames.Nodup ∧
      listing.items[4]?.map (·.body) = some
        "struct A<'state, 'state>(\n    /// MUST match [`MEntry::A`]\n    &'state mut M<'state>,\n);" := by
  obtain ⟨m, events, -, hload, -, hcheck⟩ := exists_load_of_check stateful (fun m _ =>
    (Code.parametersOf m.document.generics).toOption == some ["'state"] &&
    (match m.generate .mermaid [] with
      | .ok listing _ => listing.items[4]?.map (·.body) == some
          "struct A<'state, 'state>(\n    /// MUST match [`MEntry::A`]\n    &'state mut M<'state>,\n);"
      | .error .. => false)) (by decide +kernel)
  obtain ⟨hparams, hbody⟩ := Bool.and_eq_true_iff.mp hcheck
  obtain ⟨api, hapi⟩ := exists_ofDocument hload
  rw [Code.Api.parametersOf_of_ofDocument hapi] at hparams
  have hnames : api.params.map Code.parameterName = ["'state"] := by
    rw [Option.some.inj (beq_iff_eq.mp hparams)]
    decide
  have hown : (api.params.map Code.parameterName).Nodup := by
    rw [hnames]
    decide
  have hclash : ¬ api.handleNames.Nodup := by
    rw [api.handleNames_eq, hnames]
    decide
  split at hbody
  · next listing noted hgenerate =>
    exact ⟨m, events, hload, api, listing, noted, hapi, hgenerate, hown, hclash, beq_iff_eq.mp hbody⟩
  · cases hbody

end Machine

end Typestate
