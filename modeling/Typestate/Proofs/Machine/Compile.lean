import Typestate.Code.Generate
import Typestate.Proofs.Code.Parameters
import Typestate.Proofs.Grammar.Capture
import Typestate.Proofs.Graph.Names
import Typestate.Proofs.Machine.Load

/-!
Compiling a text. Whatever the text is, it is compiled, or there is a complaint about it: a parameter list
is one because reading made it so, and looking up neighbours finds them (`Machine.compile_outcome`).
-/

namespace Typestate

/-- The failure is a complaint about a text, and not that reading it goes on for ever. -/
def Failure.IsComplaint : Failure → Prop
  | .parse e => e.cause ≠ .stalled
  | .validation _ => True
  | _ => False

namespace Logged

/-- Whatever was noted before, the run comes to a result in `post`, or it complains about the text. -/
def Completes {α : Type} (run : Logged α) (post : α → Prop) : Prop :=
  ∀ events, match run events with
    | .ok a _ => post a
    | .error f _ => f.IsComplaint

variable {α β : Type} {run : Logged α} {next : α → Logged β} {post : α → Prop}

theorem completes_pure {a : α} (h : post a) : Completes (pure a) post := fun _ => h

/-- **Sequencing.** Runs that complete one after the other complete together. -/
theorem Completes.bind {post' : β → Prop} (h : Completes run post)
    (hn : ∀ a, post a → Completes (next a) post') : Completes (run >>= next) post' := by
  intro events
  have hfirst := h events
  have hbind : (run >>= next) events = EStateM.bind run next events := rfl
  rw [hbind, EStateM.bind]
  cases hrun : run events with
  | ok a events' =>
    rw [hrun] at hfirst
    exact hn a hfirst events'
  | error f events' =>
    rw [hrun] at hfirst
    exact hfirst

theorem completes_note (event : Event) : Completes (note event) fun _ => True := fun _ => trivial

theorem completes_notes {ι : Type} (l : List ι) (event : ι → Event) :
    Completes (l.forM fun i => note (event i)) fun _ => True := by
  induction l with
  | nil => exact completes_pure trivial
  | cons i l ih => exact (completes_note (event i)).bind fun _ _ => ih

theorem completes_ofExcept {x : Except Failure α} (hok : ∀ a, x = .ok a → post a)
    (herror : ∀ f, x = .error f → f.IsComplaint) : Completes (ofExcept x) post := by
  intro events
  cases x with
  | ok a => exact hok a rfl
  | error f => exact herror f rfl

theorem completes_ok {a : α} (h : post a) : Completes (ofExcept (.ok a)) post := fun _ => h

/-- What is true of all results may be added. -/
theorem Completes.of_ok (h : Completes run fun _ => True)
    (hok : ∀ events a events', run events = .ok a events' → post a) : Completes run post := by
  intro events
  have hrun := h events
  cases hresult : run events with
  | ok a events' => exact hok events a events' hresult
  | error f events' =>
    rw [hresult] at hrun
    exact hrun

end Logged

open Logged

/-! ## Loading -/

theorem completes_read (src : Source) : Completes (src.read .machine) fun _ => True := by
  refine (completes_ofExcept (fun _ _ => trivial) fun f hf => ?_).bind fun d _ =>
    (completes_note _).bind fun _ _ => completes_pure trivial
  cases hparse : src.parse with
  | ok d =>
    rw [hparse] at hf
    cases hf
  | error e =>
    rw [hparse] at hf
    cases hf
    exact Source.parse_ne_stalled hparse

theorem completes_overrides (o : Overrides) (d : Document) : Completes (o.run d) fun _ => True := by
  unfold Overrides.run
  split
  · exact (completes_note _).bind fun _ _ => completes_pure trivial
  · exact completes_pure trivial

theorem completes_buildGraph (d : Document) (file : Option Path) (text : Option String) :
    Completes (d.buildGraph file text) fun _ => True := by
  unfold Document.buildGraph
  cases hdraft : d.draft with
  | ok g draft =>
    refine (completes_notes _ _).bind fun _ _ => Completes.bind (completes_ok trivial)
      fun g' (_ : True) => (completes_note _).bind fun _ _ => completes_pure trivial
  | error fault draft =>
    -- No fault of the statements is one of an edge that leaves an unknown node.
    have hfault : Graph.ofStatements d.config.renameMethods [d.name, d.entryName] d.span d.statements =
        .error fault := by
      unfold Graph.ofStatements
      unfold Document.draft at hdraft
      rw [hdraft]
    obtain ⟨-, cause, span, rfl⟩ := Graph.invalid_of_ofStatements hfault
    refine (completes_notes _ _).bind fun _ _ => Completes.bind (completes_ofExcept nofun ?_)
      fun g (_ : True) => (completes_note _).bind fun _ _ => completes_pure trivial
    rintro _ ⟨⟩
    trivial

theorem completes_load (src : Source) (o : Overrides) :
    Completes (Machine.load src .machine o) fun m =>
      m.Drawn ∧ ∃ d, src.parse = .ok d ∧ m.document.generics = d.generics := by
  refine Completes.of_ok ?_ fun events m events' hload => ?_
  · refine (completes_read src).bind fun d _ => (completes_overrides o d).bind fun d' _ => ?_
    exact (completes_buildGraph d' _ _).bind fun _ _ => completes_pure trivial
  · obtain ⟨d, hparse, hdocument, hdrawn⟩ := Machine.of_load hload
    exact ⟨hdrawn, d, hparse, by rw [hdocument]; rfl⟩

/-! ## Parameters -/

/-- The parameters that reading leaves are a list of parameters. -/
theorem exists_parametersOf {src : Source} {d : Document} (h : src.parse = .ok d) :
    ∃ params, Code.parametersOf d.generics = .ok params := by
  obtain ⟨tokens, htokens⟩ : ∃ tokens, src.tokenize = .ok tokens := by
    cases htokens : src.tokenize with
    | ok tokens => exact ⟨tokens, rfl⟩
    | error e =>
      rw [Source.parse, htokens] at h
      cases h
  rcases (Source.parse_captured htokens h).generics with hnone | ⟨taken, -, hsome⟩
  · rw [hnone]
    exact ⟨[], rfl⟩
  · rw [hsome]
    exact ⟨_, Code.parametersOf_angled _⟩

theorem Code.Api.exists_ofDocument {d : Document} {params : List String}
    (h : parametersOf d.generics = .ok params) : ∃ api, ofDocument d = .ok api := by
  unfold ofDocument
  rw [h]
  exact ⟨_, rfl⟩

/-! ## Compiling -/

/-- The renderer never fails. -/
def Renderer.Succeeds (r : Renderer) : Prop :=
  ∀ diagram events, ∃ markup events', r.render diagram events = .ok markup events'

theorem Renderer.Succeeds.completes {r : Renderer} (h : r.Succeeds) (diagram : String) :
    Completes (r.render diagram) fun _ => True := by
  intro events
  obtain ⟨markup, events', hrender⟩ := h diagram events
  rw [hrender]
  trivial

namespace Machine

theorem completes_generate {m : Machine} {mermaid : Renderer} (hmermaid : mermaid.Succeeds)
    (hdrawn : m.Drawn) {params : List String}
    (hparams : Code.parametersOf m.document.generics = .ok params) :
    Completes (m.generate mermaid) fun _ => True := by
  obtain ⟨api, hapi⟩ := Code.Api.exists_ofDocument hparams
  have hdocs : Completes (m.mermaidDocs mermaid) fun _ => True := by
    unfold mermaidDocs
    split
    · exact completes_pure trivial
    · refine (hmermaid.completes _).bind fun markup _ => ?_
      cases markup <;> exact completes_pure trivial
  unfold generate
  rw [hapi, Graph.placedNodes_eq hdrawn.built.closed]
  refine Completes.bind (completes_ok trivial) fun api (_ : True) => ?_
  refine Completes.bind (completes_ok trivial) fun nodes (_ : True) => hdocs.bind fun docs _ => ?_
  exact (completes_note _).bind fun _ _ => completes_pure trivial

theorem completes_compile {m : Machine} {mermaid : Renderer} {svg : Option Renderer}
    (hmermaid : mermaid.Succeeds) (hsvg : ∀ r ∈ svg, r.Succeeds) (hdrawn : m.Drawn)
    {params : List String} (hparams : Code.parametersOf m.document.generics = .ok params) :
    Completes (m.compile mermaid svg) fun _ => True := by
  unfold compile
  refine (completes_generate hmermaid hdrawn hparams).bind fun listing _ => ?_
  cases svg with
  | none => exact completes_pure trivial
  | some renderer =>
    have hdocs : Completes (m.svgDocs renderer) fun _ => True := by
      unfold svgDocs
      refine ((hsvg renderer rfl).completes _).bind fun drawing _ => ?_
      cases drawing <;> exact completes_pure trivial
    exact hdocs.bind fun _ _ => completes_pure trivial

/-- **Compiling.** Every text is compiled or complained about. -/
theorem compile_outcome (src : Source) (overrides : Overrides) {mermaid : Renderer}
    {svg : Option Renderer} (hmermaid : mermaid.Succeeds) (hsvg : ∀ r ∈ svg, r.Succeeds)
    (events : List Event) :
    let run : Logged Code.Listing := do
      let m ← load src .machine overrides
      m.compile mermaid svg
    (∃ listing events', run events = .ok listing events') ∨
      (∃ e events', run events = .error (.parse e) events' ∧ e.cause ≠ .stalled) ∨
      ∃ e events', run events = .error (.validation e) events' := by
  intro run
  have hrun : Completes run fun _ => True := by
    refine (completes_load src overrides).bind fun m ⟨hdrawn, d, hparse, hgenerics⟩ => ?_
    obtain ⟨params, hparams⟩ := exists_parametersOf hparse
    rw [← hgenerics] at hparams
    exact completes_compile hmermaid hsvg hdrawn hparams
  have hend := hrun events
  split at hend
  · next listing events' hok => exact Or.inl ⟨listing, events', hok⟩
  · next f events' herror =>
    cases f with
    | parse e => exact Or.inr (Or.inl ⟨e, events', herror, hend⟩)
    | validation e => exact Or.inr (Or.inr ⟨e, events', herror⟩)
    | _ => exact absurd hend id

/-- A lamp with a parameter, a payload and a diagram. -/
def lamp : Source :=
  { text := "#[fsmentry(mermaid = true)] pub Lamp<T> \x7b Off: Option<T>; Off -> On -> Off; \x7d" }

theorem lamp_compile : (Renderer.function some).Succeeds ∧ Renderer.null.Succeeds ∧
    ∃ listing events, (do
      let m ← load lamp .machine { vis := some "" }
      m.compile (.function some) (some .null) : Logged Code.Listing) [] = .ok listing events := by
  have hfunction : (Renderer.function some).Succeeds := fun diagram events => ⟨some diagram, events, rfl⟩
  have hnull : Renderer.null.Succeeds := fun _ events => ⟨none, events, rfl⟩
  refine ⟨hfunction, hnull, ?_⟩
  have hok : (match (do
      let m ← load lamp .machine { vis := some "" }
      m.compile (.function some) (some .null) : Logged Code.Listing) [] with
    | .ok _ _ => true
    | .error _ _ => false) = true := by decide +kernel
  have houtcome := compile_outcome lamp { vis := some "" } hfunction
    (fun r (hr : r ∈ some Renderer.null) => by cases hr; exact hnull) []
  rcases houtcome with hdone | ⟨e, events, herror, -⟩ | ⟨e, events, herror⟩
  · exact hdone
  · rw [herror] at hok
    cases hok
  · rw [herror] at hok
    cases hok

end Machine

end Typestate
