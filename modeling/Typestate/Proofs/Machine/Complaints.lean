import Typestate.Proofs.Comparison
import Typestate.Proofs.Grammar.Capture
import Typestate.Proofs.Grammar.Origin
import Typestate.Proofs.Graph.Blaming
import Typestate.Proofs.Machine.Load
import Typestate.Proofs.Source.Snippet

/-!
Where a text is faulty. What keeps a text from being a machine is the fault of a token of it or of a place
that some reader got from a token, so the failure points into the text and shows the lines around
(`Machine.shows_of_load`).
-/

namespace Typestate

variable {src : Source}

/-! ## Reading -/

theorem Token.InPlace.places_span {t : Token} (h : t.InPlace src) : src.Places t.span :=
  ⟨t.start, congrArg Nat.cast h.line, congrArg Nat.cast h.column⟩

/-- What is placed by tokens is at a place in the text. -/
theorem PlacedBy.exists_places {good : Token → Prop} {place : Option Span} (h : PlacedBy good place)
    (hgood : ∀ t, good t → t.InPlace src) : ∃ span, place = some span ∧ src.Places span := by
  obtain ⟨t, span, ht, rfl, hline, hcolumn⟩ := h
  obtain ⟨offset, hoffset⟩ := (hgood t ht).places_span
  exact ⟨span, rfl, offset, hline.trans hoffset.1, hcolumn.trans hoffset.2⟩

theorem Source.marks_of_parse {e : ParseError} (h : src.parse = .error e) : src.Marks e.context := by
  cases htokens : src.tokenize with
  | error e' =>
    rw [parse, htokens] at h
    cases h
    exact marks_of_tokenize htokens
  | ok tokens =>
    have hrun : Parser.document.run src tokens = .error e := by
      rw [← h, parse, htokens]
      rfl
    unfold Parser.run at hrun
    split at hrun
    · cases hrun
    · next e' s hdocument =>
      cases hrun
      rcases Parser.ensures_document.of_error (all_ofTokens htokens) hdocument with hstalled | ⟨t, ht, hcontext⟩
      · exact absurd hstalled (parse_ne_stalled h)
      · rw [hcontext]
        exact marks_context (inPlace_of_tokenize htokens t ht).places_span

/-! ## Building -/

section
variable {good : Token → Prop} {statements : List Statement} (h : ∀ s ∈ statements, s.MadeBy good)
include h

theorem placedBy_mentions {r : NodeRef} (hr : r ∈ mentions statements) : PlacedBy good r.span := by
  have hmade : r.MadeBy good := by
    rcases (mem_mentions statements r).mp hr with hr | ⟨c, hc, hr⟩
    · exact h _ hr
    · exact (h _ hc).1 r hr
  obtain ⟨t, ht, -, -, hspan⟩ := hmade
  rw [hspan]
  exact placedBy_span ht

theorem placedBy_edgeMentions {m : EdgeMention} (hm : m ∈ edgeMentions statements) :
    PlacedBy good m.arrow.span := by
  obtain ⟨c, hc, step, hstep, harrow⟩ := exists_step_of_mem_edgeMentions hm
  rw [← harrow]
  exact ((h _ hc).2 step hstep).span

end

/-- A graph is built if the statements have one. -/
theorem Document.yields_buildGraph {d : Document} {g : Graph}
    (h : Graph.ofStatements d.config.renameMethods [d.name, d.entryName] d.span d.statements = .ok g)
    (file : Option Path) (text : Option String) : (d.buildGraph file text).Yields (· = g) := by
  unfold Graph.ofStatements at h
  unfold buildGraph draft
  cases hrun : Drafting.build d.config.renameMethods [d.name, d.entryName] d.span d.statements {} with
  | ok g' draft =>
    rw [hrun] at h
    cases h
    refine (Logged.yields_notes _ _).bind fun _ _ => ?_
    refine (Logged.yields_pure rfl : (pure g : Logged Graph).Yields (· = g)).bind fun g' hg => ?_
    exact (Logged.yields_note _).bind fun _ _ => Logged.yields_pure hg
  | error fault draft =>
    rw [hrun] at h
    cases h

/-- A graph is not built because its statements have none. -/
theorem Document.exists_fault_of_buildGraph {d : Document} {file : Option Path} {text : Option String}
    {f : Failure} {events events' : List Event} (h : d.buildGraph file text events = .error f events') :
    ∃ fault, Graph.ofStatements d.config.renameMethods [d.name, d.entryName] d.span d.statements =
      .error fault ∧ f = fault.failure file text := by
  cases hgraph : Graph.ofStatements d.config.renameMethods [d.name, d.entryName] d.span d.statements with
  | ok g => exact absurd h (yields_buildGraph hgraph file text).ne_error
  | error fault =>
    refine ⟨fault, rfl, ?_⟩
    unfold Graph.ofStatements at hgraph
    unfold buildGraph draft at h
    cases hrun : Drafting.build d.config.renameMethods [d.name, d.entryName] d.span d.statements {} with
    | ok g draft =>
      rw [hrun] at hgraph
      cases hgraph
    | error fault' draft =>
      rw [hrun] at hgraph h
      cases hgraph
      rcases Run.bind_eq_error_iff.mp h with hnotes | ⟨-, _, -, h⟩
      · exact absurd hnotes (Logged.yields_notes _ _).ne_error
      · rcases Run.bind_eq_error_iff.mp h with hfault | ⟨g, _, hok, -⟩
        · cases hfault
          rfl
        · cases hok

/-! ## Loading -/

theorem Source.exists_error_of_read {f : Failure} {events events' : List Event}
    (h : src.read .machine events = .error f events') : ∃ e, src.parse = .error e ∧ f = .parse e := by
  unfold read at h
  cases hparse : src.parse with
  | ok d =>
    rw [hparse] at h
    rcases Run.bind_eq_error_iff.mp h with hok | ⟨d', _, -, hnote⟩
    · cases hok
    · have hyields : (do Logged.note (.parsedMachine d'.name d'.statements.length src.file); return d').Yields
          fun _ => True := (Logged.yields_note _).bind fun _ _ => Logged.yields_pure trivial
      exact absurd hnote hyields.ne_error
  | error e =>
    rw [hparse] at h
    cases h
    exact ⟨e, rfl, rfl⟩

/-- A machine is not loaded because its text is not read, or because its statements have no graph. -/
theorem Machine.error_of_load {overrides : Overrides} {f : Failure} {events events' : List Event}
    (h : load src .machine overrides events = .error f events') :
    (∃ e, src.parse = .error e ∧ f = .parse e) ∨ ∃ d fault, src.parse = .ok d ∧
      Graph.ofStatements (overrides.apply d).config.renameMethods
        [(overrides.apply d).name, (overrides.apply d).entryName] d.span d.statements = .error fault ∧
      f = fault.failure src.file (some src.text) := by
  unfold load at h
  rcases Run.bind_eq_error_iff.mp h with hread | ⟨d, _, hread, h⟩
  · exact Or.inl (Source.exists_error_of_read hread)
  · rcases Run.bind_eq_error_iff.mp h with hrun | ⟨d', _, hrun, h⟩
    · exact absurd hrun (yields_overrides overrides d).ne_error
    · obtain rfl := Overrides.eq_apply_of_run hrun
      rcases Run.bind_eq_error_iff.mp h with hbuild | ⟨g, _, -, hpure⟩
      · obtain ⟨fault, hfault, rfl⟩ := Document.exists_fault_of_buildGraph hbuild
        exact Or.inr ⟨d, fault, Source.parse_of_read hread, hfault, rfl⟩
      · cases hpure

theorem Machine.marks_of_load {overrides : Overrides} {f : Failure} {events events' : List Event}
    (h : load src .machine overrides events = .error f events') : src.Marks f.context := by
  rcases error_of_load h with ⟨e, hparse, rfl⟩ | ⟨d, fault, hparse, hfault, rfl⟩
  · exact Source.marks_of_parse hparse
  · cases htokens : src.tokenize with
    | error e =>
      rw [Source.parse, htokens] at hparse
      cases hparse
    | ok tokens =>
      have hmade := Source.parse_madeBy htokens hparse
      obtain ⟨cause, place, rfl, hplace⟩ := Graph.place_of_ofStatements hfault hmade.span
        (fun _ hr => placedBy_mentions hmade.statements hr)
        fun _ hm => placedBy_edgeMentions hmade.statements hm
      obtain ⟨span, rfl, hspan⟩ := hplace.exists_places (Source.inPlace_of_tokenize htokens)
      exact marks_context hspan

/-- **Complaints.** What fails to load as a machine fails at a line and a column of its text, and the message
shows the lines around, with carets under that column and nowhere else. -/
theorem Machine.shows_of_load {overrides : Overrides} {f : Failure} {events events' : List Event}
    (h : load src .machine overrides events = .error f events') :
    ∃ (c : Context) (line column : Nat), f.context = some c ∧ c.line = line ∧ c.column = column ∧
      src.Contains line column ∧
      (src.text ≠ "" → ∃ shown, src.Shows line column shown ∧
        f.message = c.location ++ "\n" ++ shown ++ "\n" ++ f.detail) := by
  obtain ⟨span, ⟨offset, hline, hcolumn⟩, hcontext⟩ := marks_of_load h
  have hcontains := src.contains_offset offset
  refine ⟨src.context span, src.lineAt offset, src.columnAt offset, hcontext, hline, hcolumn, hcontains,
    fun htext => ?_⟩
  obtain ⟨shown, hshown, hformat⟩ := Source.exists_shows hline hcolumn hcontains htext
  refine ⟨shown, hshown, ?_⟩
  rw [Failure.message, hcontext]
  exact congrArg (· ++ "\n" ++ f.detail) hformat

/-- Two edges from one node to another, with an empty line between them. -/
def twice : Source := { text := "A -> B;\n\nA -> B;" }

theorem twice_shows : ∃ f events, Machine.load twice .machine {} [] = .error f events ∧
    f.message = "<input>:3:3\n   1 | A -> B;\n   2 | \n   3 | A -> B;\n         ^^\n" ++
      "Duplicate edge definition `A -> B`" ∧
    ∃ (c : Context) (line column : Nat), f.context = some c ∧ c.line = line ∧ c.column = column ∧
      twice.Contains line column ∧
      (twice.text ≠ "" → ∃ shown, twice.Shows line column shown ∧
        f.message = c.location ++ "\n" ++ shown ++ "\n" ++ f.detail) := by
  have hmessage : (Machine.load twice).outcome.1.mapError Failure.message = .error (
      "<input>:3:3\n   1 | A -> B;\n   2 | \n   3 | A -> B;\n         ^^\n" ++
        "Duplicate edge definition `A -> B`") := by decide +kernel
  unfold Logged.outcome at hmessage
  cases hload : Machine.load twice .machine {} [] with
  | ok m events =>
    rw [hload] at hmessage
    cases hmessage
  | error f events =>
    rw [hload] at hmessage
    exact ⟨f, events, rfl, Except.error.inj hmessage, Machine.shows_of_load hload⟩

end Typestate
