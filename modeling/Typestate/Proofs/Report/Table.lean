import Typestate.Command.Run
import Typestate.Proofs.Digraph.Names
import Typestate.Proofs.Graph.Names
import Typestate.Proofs.Grammar.Origin
import Typestate.Proofs.Machine.Load
import Typestate.Proofs.MethodName
import Typestate.Proofs.Report.Markup

/-!
The table of a machine, whatever console shows it. The names in it are made of characters that mean nothing to markup,
so what there is to show depends on the payload types alone: there is a table if and only if each of them can be shown,
and a type in which nothing but tags means anything to a console is shown in full if and only if there is no tag in it
(`Command.check_shows`).
-/

namespace Typestate

open Report (isQuiet)

/-! ## Names -/

namespace Identifier

/-- All characters of the name mean nothing to markup. -/
def IsQuietName (name : String) : Prop := ∀ c ∈ name.toList, isQuiet c = true

instance (name : String) : Decidable (IsQuietName name) :=
  decidable_of_iff (name.toList.all isQuiet = true) List.all_eq_true

section
variable {c d : Char} {cs : List Char} {name : String}

theorem isQuiet_of_wordChar (h : isWordChar c = true) : isQuiet c = true := by
  have hsigns : Report.noisy.all (fun c => !isWordChar c) = true := by decide
  by_contra hnot
  have hsign := List.all_eq_true.mp hsigns c (Report.mem_noisy_of_not_quiet hnot)
  rw [h] at hsign
  cases hsign

theorem isQuiet_of_mem_lower (h : isQuiet c = true) (hd : d ∈ Unicode.lower c) : isQuiet d = true := by
  have hsigns : Report.noisy.all (fun c => decide (0 < c.toNat ∧ c.toNat < 'a'.toNat)) = true := by decide
  by_contra hnot
  obtain ⟨hpos, hlt⟩ := of_decide_eq_true (List.all_eq_true.mp hsigns d (Report.mem_noisy_of_not_quiet hnot))
  rw [eq_of_mem_lower hd hpos hlt] at hnot
  exact hnot h

/-- A name is quiet if it is so but for its marker. -/
theorem isQuietName_of_bare (h : ∀ c ∈ bareChars name.toList, isQuiet c = true) : IsQuietName name := by
  unfold IsQuietName
  cases hraw : hasRawMarker name.toList with
  | true =>
    rw [eq_of_raw hraw]
    exact List.forall_mem_cons.mpr ⟨by decide, List.forall_mem_cons.mpr ⟨by decide, h⟩⟩
  | false => rwa [bareChars_of_not_raw hraw] at h

theorem IsName.isQuietName (h : IsName name) : IsQuietName name := by
  refine isQuietName_of_bare fun c hc => isQuiet_of_wordChar ?_
  exact h.forall_mem (fun _ => Lexeme.isWordChar_of_isWordStart) c hc

namespace IsQuietName

theorem withoutRaw (h : IsQuietName name) : IsQuietName (withoutRaw name) := by
  unfold IsQuietName
  rw [toList_withoutRaw]
  exact fun c hc => h c (mem_of_mem_bareChars hc)

theorem append {ending : String} (h : IsQuietName name) (hending : IsQuietName ending) :
    IsQuietName (name ++ ending) := by
  unfold IsQuietName
  rw [String.toList_append]
  exact List.forall_mem_append.mpr ⟨h, hending⟩

theorem escape (h : IsQuietName name) : IsQuietName (escape name) := by
  have hmarker : IsQuietName "r#" := by decide
  have hunderscore : IsQuietName "_" := by decide
  rw [escape_eq]
  split_ifs
  · exact h.withoutRaw.append hunderscore
  · exact hmarker.append h.withoutRaw
  · exact h.withoutRaw

theorem snakeTail (h : ∀ c ∈ cs, isQuiet c = true) : ∀ c ∈ snakeTail cs, isQuiet c = true := by
  induction cs with
  | nil => exact List.forall_mem_nil _
  | cons c cs ih =>
    obtain ⟨hc, hcs⟩ := List.forall_mem_cons.mp h
    have hlower : ∀ d ∈ Unicode.lower c, isQuiet d = true := fun d => isQuiet_of_mem_lower hc
    rw [Identifier.snakeTail]
    refine List.forall_mem_append.mpr ⟨?_, ih hcs⟩
    split
    · exact List.forall_mem_cons.mpr ⟨by decide, hlower⟩
    · exact hlower

theorem snakeCase (h : IsQuietName name) : IsQuietName (snakeCase name) := by
  unfold IsQuietName Identifier.snakeCase
  rw [String.toList_ofList]
  have hbare : ∀ c ∈ bareChars name.toList, isQuiet c = true := fun c hc => h c (mem_of_mem_bareChars hc)
  cases hcs : bareChars name.toList with
  | nil => exact List.forall_mem_nil _
  | cons c cs =>
    rw [hcs] at hbare
    obtain ⟨hc, hcs⟩ := List.forall_mem_cons.mp hbare
    exact List.forall_mem_append.mpr ⟨fun d => isQuiet_of_mem_lower hc, snakeTail hcs⟩

theorem methodInto (h : IsQuietName name) (renameMethods : Bool) :
    IsQuietName (methodInto name renameMethods) := by
  unfold Identifier.methodInto
  split
  · exact h.snakeCase.escape
  · exact h.withoutRaw.escape

theorem number (n : Nat) : IsQuietName (toString n) := by
  intro c hc
  rw [Nat.toString_eq_repr, Nat.toList_repr] at hc
  have hdigit : c.isDigit = true := Nat.isDigit_of_mem_toDigits (by decide) (by decide) hc
  exact isQuiet_of_wordChar (isWordChar_of_isPlainChar (by simp [isPlainChar, hdigit]))

theorem numbered (h : IsQuietName name) (used : List String) : IsQuietName (numbered name used) := by
  obtain ⟨n, hn⟩ := exists_numbered name used
  rw [hn]
  exact (h.withoutRaw.append (by decide)).append (number n)

end IsQuietName

end

end Identifier

open Identifier (IsQuietName)

/-! ## Machines -/

theorem Digraph.isQuietName_canonicalName {raw name : String} (h : canonicalName raw = .ok name) :
    IsQuietName name := by
  unfold canonicalName at h
  dsimp only at h
  split at h
  · cases h
  · split at h
    · cases h
    · next hwell =>
      have hwell : Identifier.isWellFormed (String.ofList (unquote raw.toList)) = true := by simpa using hwell
      have hword := Identifier.isWord_of_isWellFormed hwell
      have hplain : ∀ c ∈ Identifier.bareChars
          (Identifier.dropFinalNewline (String.ofList (unquote raw.toList)).toList), isQuiet c = true := fun c hc =>
        Identifier.isQuiet_of_wordChar (Identifier.isWordChar_of_isPlainChar
          (Identifier.isPlainChar_of_mem ((Identifier.isWellFormed_iff _).mp hwell) c hc))
      refine Identifier.isQuietName_of_bare ?_
      rw [Identifier.bareChars_canonical hword (Run.eq_ok_of_mapError h)]
      rcases Identifier.eq_dropFinalNewline (String.ofList (unquote raw.toList)).toList with heq | heq
      · rwa [heq]
      · rw [heq, Identifier.bareChars_concat]
        exact List.forall_mem_append.mpr ⟨hplain, List.forall_mem_singleton.mpr rfl⟩

theorem Source.isQuietName_of_read {src : Source} {language : Language} {d : Document}
    {events events' : List Event} (h : src.read language events = .ok d events') :
    IsQuietName d.name ∧ ∀ s ∈ d.statements, s.NamedBy IsQuietName IsQuietName := by
  have hdefault : IsQuietName defaultMachineName := by decide
  cases language with
  | machine =>
    have hparse := parse_of_read h
    refine ⟨?_, fun s hs => (parse_wordNames hparse s hs).imp (fun _ => Identifier.IsName.isQuietName)
      fun _ => Identifier.IsName.isQuietName⟩
    obtain ⟨tokens, htokens, -⟩ := Run.except_bind_eq_ok_iff.mp hparse
    rcases (parse_enumNames htokens hparse).name with hname | ⟨t, ht, hkind, hname⟩
    · rw [hname]
      exact hdefault
    · rw [← hname]
      exact (tokenize_names htokens t ht (hkind ▸ rfl)).isQuietName
  | digraph library =>
    obtain ⟨c, -, hc⟩ := exists_contents (parseDigraph_of_read h)
    obtain ⟨name, nodes, edges, hname, -, -, hd⟩ := Digraph.eq_of_document hc
    have hclean : ∀ {e : Digraph.Endpoint} {n : String}, e.clean = .ok n → IsQuietName n := by
      intro e n hn
      cases e with
      | node raw => exact Digraph.isQuietName_canonicalName hn
      | group => cases hn
    have hnames := Digraph.namedBy_document hc (fun _ _ _ => Digraph.isQuietName_canonicalName)
      fun _ _ => ⟨fun _ => hclean, fun _ => hclean⟩
    refine ⟨?_, fun s hs => (hnames s hs).imp (fun _ hname => hname) fun _ => False.elim⟩
    have hsame : d.name = name := by rw [hd]
    rw [hsame]
    rcases hname with ⟨-, rfl⟩ | hname
    · exact hdefault
    · exact Digraph.isQuietName_canonicalName hname

theorem Built.isQuietName {statements : List Statement}
    (hnames : ∀ s ∈ statements, s.NamedBy IsQuietName IsQuietName) {renameMethods : Bool} {g : Graph}
    (h : Built renameMethods statements g) (honce : ((edgeMentions statements).map (·.key)).Nodup)
    {source target : String} {e : Edge} (he : (target, e) ∈ g.leaving source) :
    IsQuietName target ∧ IsQuietName e.methodName := by
  refine ⟨?_, h.methodNamedBy hnames (fun _ hname => hname.methodInto renameMethods)
    (fun _ hname => hname.escape) (fun _ used hname => hname.numbered used) honce he⟩
  obtain ⟨m, hm, hkey, -⟩ := h.exists_mention honce he
  have htarget := (edgeMentions_namedBy hnames hm).1
  rwa [hkey] at htarget

/-! ## Rows -/

namespace Report

/-- What the table is given for the payload of a node. -/
def payloadCell (c : PlacedNode) : String := c.node.ty.getD ""

/-- The transitions of a node, as they are listed. -/
def transitionCell (c : PlacedNode) : String :=
  String.intercalate ", " (c.neighborhood.outgoing.map fun n => n.edge.methodName ++ " → " ++ n.name)

/-- What is shown of a node, with a text for its payload. -/
def rowWith (c : PlacedNode) (payload : List Char) : List (List Char) :=
  [c.name.toList, payload, c.neighborhood.kind.name.toList, (transitionCell c).toList]

/-- A whole report: the table of the nodes with their payloads, and a line that counts nodes and edges. -/
def reportOf (console : Console) (title : String) (nodes : List PlacedNode) (payloads : List (List Char))
    (edges : Nat) : String :=
  console.table title.toList (headers.map String.toList) (List.zipWith rowWith nodes payloads) ++ console.paragraph
    ("\n✓ " ++ toString nodes.length ++ " state(s), " ++ toString edges ++ " transition(s)").toList

/-- The names in the row of a node are quiet. -/
structure QuietRow (c : PlacedNode) : Prop where
  name : IsQuietName c.name
  outgoing : ∀ n ∈ c.neighborhood.outgoing, IsQuietName n.name ∧ IsQuietName n.edge.methodName

theorem isQuietName_intercalate {separator : String} {texts : List String} (hseparator : IsQuietName separator)
    (htexts : ∀ text ∈ texts, IsQuietName text) : IsQuietName (String.intercalate separator texts) := by
  unfold IsQuietName
  rw [String.toList_intercalate]
  induction texts with
  | nil => exact List.forall_mem_nil _
  | cons text texts ih =>
    obtain ⟨htext, htexts⟩ := List.forall_mem_cons.mp htexts
    cases texts with
    | nil => simpa [IsQuietName] using htext
    | cons next texts =>
      rw [List.map_cons, List.map_cons, List.intercalate_cons_cons, ← List.map_cons]
      exact List.forall_mem_append.mpr ⟨List.forall_mem_append.mpr ⟨htext, hseparator⟩, ih htexts⟩

variable {console : Console} (hconsole : console.ReadsMarkup) {c : PlacedNode} {nodes : List PlacedNode}
include hconsole

theorem shown_kind (kind : NodeKind) :
    console.shown (styled (styleOf kind) kind.name) = some kind.name.toList := by
  have hname : IsQuietName ("" ++ kind.name ++ "") := by
    cases kind <;> decide
  have hshown := hconsole.styled kind "" kind.name "" hname
  simpa only [String.empty_append, String.append_empty] using hshown

theorem shown_countLine (count edges : Nat) : console.shown (countLine count edges) =
    some ("\n✓ " ++ toString count ++ " state(s), " ++ toString edges ++ " transition(s)").toList := by
  have hstates : IsQuietName " state(s), " := by decide
  have htransitions : IsQuietName " transition(s)" := by decide
  have hfront : IsQuietName ("\n" ++ "✓") := by decide
  have hspace : IsQuietName " " := by decide
  have hbehind : IsQuietName (" " ++ toString count ++ " state(s), " ++ toString edges ++ " transition(s)") :=
    (((hspace.append (.number count)).append hstates).append (.number edges)).append htransitions
  have hshown := hconsole.styled .source "\n" "✓" _ (hfront.append hbehind)
  have hmark : "\n✓ " = "\n" ++ "✓" ++ " " := rfl
  simpa only [countLine, styleOf, hmark, String.append_assoc] using hshown

theorem QuietRow.mapM_shown (h : QuietRow c) :
    (row c).mapM console.shown = (console.shown (payloadCell c)).map (rowWith c) := by
  have harrow : IsQuietName " → " := by decide
  have htransitions : IsQuietName (transitionCell c) := by
    refine isQuietName_intercalate (by decide) fun text htext => ?_
    obtain ⟨n, hn, rfl⟩ := List.mem_map.mp htext
    obtain ⟨hname, hmethod⟩ := h.outgoing n hn
    exact (hmethod.append harrow).append hname
  have hrow : row c = [c.name, payloadCell c, styled (styleOf c.neighborhood.kind) c.neighborhood.kind.name,
      transitionCell c] := rfl
  simp only [hrow, List.mapM_cons, List.mapM_nil, hconsole.shown_of_quiet h.name, shown_kind hconsole,
    hconsole.shown_of_quiet htransitions]
  cases hshown : console.shown (payloadCell c) <;> rfl

theorem mapM_rows_iff (h : ∀ c ∈ nodes, QuietRow c) {rows : List (List (List Char))} :
    (nodes.mapM fun c => (row c).mapM console.shown) = some rows ↔
      ∃ payloads, List.Forall₂ (fun c payload => console.shown (payloadCell c) = some payload) nodes payloads ∧
        rows = List.zipWith rowWith nodes payloads := by
  induction nodes generalizing rows with
  | nil =>
    simp only [List.mapM_nil, List.forall₂_nil_left_iff]
    constructor
    · rintro ⟨⟩
      exact ⟨[], rfl, rfl⟩
    · rintro ⟨_, rfl, rfl⟩
      rfl
  | cons c nodes ih =>
    obtain ⟨hc, hnodes⟩ := List.forall_mem_cons.mp h
    rw [List.mapM_cons, hc.mapM_shown hconsole]
    constructor
    · intro hrows
      obtain ⟨first, hfirst, hrows⟩ := Option.bind_eq_some_iff.mp hrows
      obtain ⟨rest, hrest, hrows⟩ := Option.bind_eq_some_iff.mp hrows
      obtain ⟨payload, hpayload, rfl⟩ := Option.map_eq_some_iff.mp hfirst
      obtain ⟨payloads, hpayloads, rfl⟩ := (ih hnodes).mp hrest
      cases hrows
      exact ⟨payload :: payloads, .cons hpayload hpayloads, rfl⟩
    · rintro ⟨_, hall, rfl⟩
      obtain ⟨payload, payloads, hpayload, hpayloads, rfl⟩ := List.forall₂_cons_left_iff.mp hall
      have hrest := (ih hnodes).mpr ⟨payloads, hpayloads, rfl⟩
      rw [hpayload, hrest]
      rfl

theorem summary_eq_some_iff {title : String} (htitle : IsQuietName title) (h : ∀ c ∈ nodes, QuietRow c)
    {edges : Nat} {output : String} : summary console title nodes edges = some output ↔
      ∃ payloads, List.Forall₂ (fun c payload => console.shown (payloadCell c) = some payload) nodes payloads ∧
        output = reportOf console title nodes payloads edges := by
  have hheaders : headers.mapM console.shown = some (headers.map String.toList) := by
    have hquiet : ∀ header ∈ headers, IsQuietName header := by decide
    simp only [headers, List.forall_mem_cons] at hquiet
    obtain ⟨hstate, hdata, hkind, htransitions, -⟩ := hquiet
    simp only [headers, List.mapM_cons, List.mapM_nil, hconsole.shown_of_quiet hstate, hconsole.shown_of_quiet hdata,
      hconsole.shown_of_quiet hkind, hconsole.shown_of_quiet htransitions]
    rfl
  unfold summary reportOf
  simp only [hconsole.shown_of_quiet htitle, hheaders, shown_countLine hconsole, Option.bind_eq_bind, Option.bind_some]
  constructor
  · intro hsummary
    obtain ⟨rows, hrows, houtput⟩ := Option.bind_eq_some_iff.mp hsummary
    obtain ⟨payloads, hpayloads, rfl⟩ := (mapM_rows_iff hconsole h).mp hrows
    exact ⟨payloads, hpayloads, (Option.some.inj houtput).symm⟩
  · rintro ⟨payloads, hpayloads, houtput⟩
    rw [(mapM_rows_iff hconsole h).mpr ⟨payloads, hpayloads, rfl⟩, houtput]
    rfl

end Report

/-! ## Machines -/

/-- The rows of the machine have quiet names. -/
theorem Machine.quietRow_of_load {src : Source} {language : Language} {m : Machine}
    {events events' : List Event} (h : load src language {} events = .ok m events') :
    IsQuietName m.document.name ∧ m.graph.placedNodes = .ok m.graph.placed ∧
      ∀ c ∈ m.graph.placed, Report.QuietRow c := by
  obtain ⟨d, _, hread, hdocument, hdrawn⟩ := read_of_load h
  obtain ⟨hname, hnames⟩ := Source.isQuietName_of_read hread
  have hsame : m.document = d := hdocument
  rw [← hsame] at hname hnames
  refine ⟨hname, Graph.placedNodes_eq hdrawn.built.closed, fun c hc => ?_⟩
  obtain ⟨⟨name, node⟩, hmem, rfl⟩ := List.mem_map.mp hc
  refine ⟨hdrawn.built.namedBy hnames (List.mem_map_of_mem hmem), fun n hn => ?_⟩
  obtain ⟨⟨target, e⟩, he, rfl⟩ := List.mem_map.mp hn
  exact hdrawn.built.isQuietName hnames hdrawn.buildable.edgesOnce he

namespace Command

open Report

theorem outcome_eq_ok_iff {α : Type} {run : Logged α} {a : α} :
    run.outcome.1 = .ok a ↔ ∃ events, run [] = .ok a events := by
  unfold Logged.outcome
  cases run [] with
  | ok b events => simp
  | error f events => simp

theorem exists_of_forall₂ {α β : Type} {related : α → β → Prop} {as : List α} {bs : List β}
    (h : List.Forall₂ related as bs) {a : α} (ha : a ∈ as) : ∃ b, related a b := by
  induction h with
  | nil => cases ha
  | cons hfirst _ ih =>
    rcases List.mem_cons.mp ha with rfl | ha
    · exact ⟨_, hfirst⟩
    · exact ih ha

/-- A check of a machine answers with the summary of its nodes, if there is one. -/
theorem check_eq_ok_iff {src : Source} {language : Language} {m : Machine} {nodes : List PlacedNode}
    {events : List Event} (h : Machine.load src language {} [] = .ok m events)
    (hnodes : m.graph.placedNodes = .ok nodes) (drawing : ProcessOutcome) (console : Console) {response : Response} :
    (Action.check.run src language drawing console).outcome.1 = .ok response ↔
      ∃ output, summary console m.document.name nodes m.graph.edges.size = some output ∧ response = { output } := by
  rw [outcome_eq_ok_iff]
  constructor
  · rintro ⟨_, hrun⟩
    obtain ⟨_, _, hload, hrun⟩ := Run.bind_eq_ok_iff.mp hrun
    rw [h] at hload
    cases hload
    obtain ⟨nodes', _, hplaced, hrun⟩ := Run.bind_eq_ok_iff.mp hrun
    rw [Run.ofExcept_eq_ok_iff, hnodes] at hplaced
    obtain ⟨⟨⟩, rfl⟩ := hplaced
    cases hsummary : summary console m.document.name nodes m.graph.edges.size with
    | none =>
      rw [hsummary] at hrun
      cases hrun
    | some output =>
      rw [hsummary] at hrun
      cases hrun
      exact ⟨output, rfl, rfl⟩
  · rintro ⟨output, hsummary, rfl⟩
    refine ⟨events, Run.bind_eq_ok_iff.mpr ⟨m, events, h, Run.bind_eq_ok_iff.mpr ⟨nodes, events, ?_, ?_⟩⟩⟩
    · exact Run.ofExcept_eq_ok_iff.mpr ⟨hnodes, rfl⟩
    · rw [hsummary]
      rfl

section
variable {console : Console} (hconsole : console.ReadsMarkup) {src : Source} {language : Language} {m : Machine}
  {events : List Event} (h : Machine.load src language {} [] = .ok m events) (drawing : ProcessOutcome)
include hconsole h

/-- A check of a machine answers if and only if every payload can be shown, and then with a row for every node. -/
theorem check_eq_ok_iff_shown (response : Response) :
    (Action.check.run src language drawing console).outcome.1 = .ok response ↔
      ∃ payloads,
        List.Forall₂ (fun c payload => console.shown (payloadCell c) = some payload) m.graph.placed payloads ∧
        response = { output := reportOf console m.document.name m.graph.placed payloads m.graph.edges.size } := by
  obtain ⟨hname, hnodes, hrows⟩ := Machine.quietRow_of_load h
  rw [check_eq_ok_iff h hnodes]
  constructor
  · rintro ⟨output, hsummary, rfl⟩
    obtain ⟨payloads, hpayloads, houtput⟩ := (summary_eq_some_iff hconsole hname hrows).mp hsummary
    exact ⟨payloads, hpayloads, by rw [houtput]⟩
  · rintro ⟨payloads, hpayloads, rfl⟩
    exact ⟨_, (summary_eq_some_iff hconsole hname hrows).mpr ⟨payloads, hpayloads, rfl⟩, rfl⟩

/-- There is no answer if a payload cannot be shown. -/
theorem check_ne_ok {c : PlacedNode} (hc : c ∈ m.graph.placed) (hnone : console.shown (payloadCell c) = none)
    (response : Response) : (Action.check.run src language drawing console).outcome.1 ≠ .ok response := by
  rw [Ne, check_eq_ok_iff_shown hconsole h]
  rintro ⟨payloads, hpayloads, -⟩
  obtain ⟨payload, hshown⟩ := exists_of_forall₂ hpayloads hc
  rw [hnone] at hshown
  cases hshown

end

/-- **Tables.** A console that reads markup shows a table of the machine if and only if it can show every payload type.
The table has a row for every node, with the name, what is shown of the payload, the kind, and the transitions. A node
without a payload shows nothing for it. A type in which nothing but tags means anything to a console is shown in full if
and only if there is no tag in it, and there is no table at all if the first tag in it ends a style. -/
theorem check_shows {console : Console} (hconsole : console.ReadsMarkup) {src : Source} {language : Language}
    {m : Machine} {events : List Event} (h : Machine.load src language {} [] = .ok m events)
    (drawing : ProcessOutcome) :
    ∃ nodes, m.graph.placedNodes = .ok nodes ∧
      (∀ response, (Action.check.run src language drawing console).outcome.1 = .ok response ↔
        ∃ payloads, List.Forall₂ (fun c payload => console.shown (payloadCell c) = some payload) nodes payloads ∧
          response = { output := reportOf console m.document.name nodes payloads m.graph.edges.size }) ∧
      ∀ c ∈ nodes, (c.node.ty = none → console.shown (payloadCell c) = some []) ∧
        (Plain (payloadCell c).toList →
          (console.shown (payloadCell c) = some (payloadCell c).toList ↔
            firstTag? (payloadCell c).toList = none) ∧
          ∀ name, firstTag? (payloadCell c).toList = some ('/' :: name) →
            ∀ response, (Action.check.run src language drawing console).outcome.1 ≠ .ok response) := by
  obtain ⟨-, hnodes, -⟩ := Machine.quietRow_of_load h
  refine ⟨m.graph.placed, hnodes, check_eq_ok_iff_shown hconsole h drawing,
    fun c hc => ⟨fun hnone => ?_, fun hplain => ⟨hconsole.shown_eq_iff hplain, fun name hfirst => ?_⟩⟩⟩
  · rw [payloadCell, hnone]
    exact hconsole.shown_of_quiet (List.forall_mem_nil _)
  · exact check_ne_ok hconsole h drawing hc (hconsole.closing _ name hplain hfirst)

/-- A machine with an array whose elements have a name in capital letters, and with a path. -/
def arrays : Source := { text := "A: Vec<[U8; 4]> -> B: std::rc::Rc<C>;" }

theorem arrays_shown : reference.ReadsMarkup ∧ ∃ m events nodes,
    Machine.load arrays .machine {} [] = .ok m events ∧ m.graph.placedNodes = .ok nodes ∧
    nodes.map payloadCell = ["Vec<[U8; 4]>", "std::rc::Rc<C>"] ∧
    (∀ c ∈ nodes, reference.shown (payloadCell c) = some (payloadCell c).toList) ∧
    let payloads := nodes.map fun c => (payloadCell c).toList
    (Action.check.run arrays .machine .notFound reference).outcome.1 =
      .ok { output := reportOf reference m.document.name nodes payloads m.graph.edges.size } := by
  obtain ⟨m, events, nodes, hload, hnodes, hcheck⟩ := Machine.exists_load_of_check arrays
    (fun _ nodes => nodes.map payloadCell == ["Vec<[U8; 4]>", "std::rc::Rc<C>"]) (by decide +kernel)
  have hcells := beq_iff_eq.mp hcheck
  obtain ⟨nodes', hnodes', hrun, hshown⟩ := check_shows reference_readsMarkup hload .notFound
  rw [hnodes] at hnodes'
  cases hnodes'
  have hall : ∀ c ∈ nodes, reference.shown (payloadCell c) = some (payloadCell c).toList := by
    intro c hc
    have hmem : payloadCell c ∈ ["Vec<[U8; 4]>", "std::rc::Rc<C>"] := hcells ▸ List.mem_map_of_mem hc
    have hplain : ∀ cell ∈ ["Vec<[U8; 4]>", "std::rc::Rc<C>"],
        Plain cell.toList ∧ firstTag? cell.toList = none := by decide
    obtain ⟨hplain, hnone⟩ := hplain _ hmem
    exact ((hshown c hc).2 hplain).1.mpr hnone
  refine ⟨reference_readsMarkup, m, events, nodes, hload, hnodes, hcells, hall, (hrun _).mpr ⟨_, ?_, rfl⟩⟩
  exact List.forall₂_map_right_iff.mpr (List.forall₂_same.mpr hall)

/-- Machines with an array of bytes, and with a slice behind a comment. -/
def bytes : Source := { text := "A: [u8; 4] -> B;" }

def commented : Source := { text := "A: [/* small */ u8] -> B;" }

/-- No console shows the first type in full, and none shows a table with the second. -/
theorem bytes_shown : reference.ReadsMarkup ∧ ∀ console : Console, console.ReadsMarkup →
    (∃ m events nodes, Machine.load bytes .machine {} [] = .ok m events ∧ m.graph.placedNodes = .ok nodes ∧
      ∃ c ∈ nodes, c.node.ty = some "[u8; 4]" ∧ console.shown (payloadCell c) ≠ some "[u8; 4]".toList) ∧
    ∃ m events, Machine.load commented .machine {} [] = .ok m events ∧
      ∀ response, (Action.check.run commented .machine .notFound console).outcome.1 ≠ .ok response := by
  refine ⟨reference_readsMarkup, fun console hconsole => ⟨?_, ?_⟩⟩
  · obtain ⟨m, events, nodes, hload, hnodes, hcheck⟩ := Machine.exists_load_of_check bytes
      (fun _ nodes => nodes.any fun c => c.node.ty == some "[u8; 4]") (by decide +kernel)
    obtain ⟨c, hc, hty⟩ := List.any_eq_true.mp hcheck
    have hplain : Plain "[u8; 4]".toList := by decide
    have htag : firstTag? "[u8; 4]".toList ≠ none := by decide
    refine ⟨m, events, nodes, hload, hnodes, c, hc, beq_iff_eq.mp hty, ?_⟩
    rw [payloadCell, beq_iff_eq.mp hty]
    exact fun hshown => htag ((hconsole.shown_eq_iff hplain).mp hshown)
  · obtain ⟨m, events, nodes, hload, hnodes, hcheck⟩ := Machine.exists_load_of_check commented
      (fun _ nodes => nodes.any fun c => c.node.ty == some "[/* small */ u8]") (by decide +kernel)
    obtain ⟨c, hc, hty⟩ := List.any_eq_true.mp hcheck
    have hplain : Plain "[/* small */ u8]".toList := by decide
    have hfirst : firstTag? "[/* small */ u8]".toList = some "/* small */ u8".toList := by decide
    refine ⟨m, events, hload, check_ne_ok hconsole hload .notFound (c := c) ?_ ?_⟩
    · rw [(Machine.quietRow_of_load hload).2.1] at hnodes
      cases hnodes
      exact hc
    · rw [payloadCell, beq_iff_eq.mp hty]
      exact hconsole.closing _ _ hplain hfirst

end Command

end Typestate
