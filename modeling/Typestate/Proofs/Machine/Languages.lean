import Typestate.Proofs.Digraph.Reference
import Typestate.Proofs.Machine.Restating

/-!
One machine in two languages. A machine that consists of chains of plain names, and of single names, is
loaded from the machine language if and only if it is loaded from the digraph language, as the same graph but
for places, and it is compiled to the same source (`Machine.tally_languages`). The library that reads the digraph may
be any that lists the single names and the pairs of names that follow each other.
-/

namespace Typestate

open Logged

theorem Trail.withoutSpans_statement (t : Trail) : t.statement.withoutSpans = t.statement := by
  obtain ⟨first, more⟩ := t
  cases more with
  | nil => rfl
  | cons m more =>
    have hsteps : ∀ names : List PlainName,
        (names.map fun n => (({}, [{ name := n.text }]) : Arrow × NodeGroup)).map stepWithoutSpans =
          names.map fun n => ({}, [{ name := n.text }]) := by
      intro names
      rw [List.map_map]
      rfl
    exact congrArg Statement.chain (congrArg (Chain.mk [] [{ name := first.text }]) (hsteps (m :: more)))

/-- What is read in the two languages has the same frame and the same mentions, or nothing is read in
either. -/
theorem Source.tally_read {library : Digraph.Library} (hlibrary : library.ReadsTrails) {src src' : Source}
    {n : PlainName} {trails : List Trail} (hn : n.IsCanonical)
    (hmachine : LaidOut (machineWords n trails) src.text.toList)
    (hdigraph : LaidOut (Digraph.graphWords n trails) src'.text.toList) (o : Overrides) :
    Tally (fun _ _ => True) (src.read .machine) (src'.read (.digraph library)) fun d d' =>
      (o.apply d).frame = (o.apply d').frame ∧ SameMentions d.statements d'.statements := by
  have hparse := Source.parse_trails hn hmachine
  have hparse' := Source.parseDigraph_trails hlibrary hdigraph
  rw [and_iff_right hn] at hparse'
  intro events events'
  cases hread : src.parse <;> cases hread' : src'.parseDigraph defaultMachineName library <;> rw [hread] at hparse <;>
    rw [hread'] at hparse'
  case error.error =>
    simp only [Source.read, hread, hread']
    trivial
  case error.ok => exact absurd hparse'.2 hparse
  case ok.error => exact absurd hparse.2 hparse'
  case ok.ok d d' =>
    obtain ⟨statements, rfl, hperm⟩ := hparse'.1
    have hstatements : d.statements.map Statement.withoutSpans =
        (trails.map Trail.statement).map Statement.withoutSpans := by
      rw [List.map_map]
      refine (congrArg Document.statements hparse.1).trans (List.map_congr_left fun t _ => ?_)
      exact t.withoutSpans_statement.symm
    have hsame : (o.apply d).frame = (o.apply { name := n.text, statements }).frame ∧
        SameMentions d.statements statements :=
      ⟨(congrArg (fun d => (o.apply d).frame) hparse.1 :),
        (sameMentions_of_withoutSpans hstatements).trans (sameMentions_parts hperm)⟩
    simp only [Source.read, hread, hread']
    exact hsame

/-- **Two languages.** Whatever the library that reads trails, a machine of trails and the digraph of the same trails
both fail to be loaded, or both are loaded, as graphs that are the same up to spans; and both fail to be compiled, or
both are compiled to the same source. -/
theorem Machine.tally_languages {library : Digraph.Library} (hlibrary : library.ReadsTrails) {src src' : Source}
    {n : PlainName} {trails : List Trail} (hn : n.IsCanonical)
    (hmachine : LaidOut (machineWords n trails) src.text.toList)
    (hdigraph : LaidOut (Digraph.graphWords n trails) src'.text.toList) (o : Overrides) :
    Tally (fun _ _ => True) (load src .machine o) (load src' (.digraph library) o) SameUpToSpans ∧
      ∀ mermaid svg, Tally (fun _ _ => True) (src.compile .machine o mermaid svg)
        (src'.compile (.digraph library) o mermaid svg) Eq := by
  have hread := Source.tally_read hlibrary hn hmachine hdigraph o
  exact ⟨tally_load hread fun _ _ => trivial, Source.tally_compile hread (fun _ _ => trivial) fun _ => trivial⟩

/-- Names of a turnstile. -/
def locked : PlainName := ⟨"Locked", by decide +kernel⟩

def unlocked : PlainName := ⟨"Unlocked", by decide +kernel⟩

def turnstile : PlainName := ⟨"graph_of_turnstile", by decide +kernel⟩

def turnstileTrails : List Trail := [⟨locked, [unlocked, locked]⟩, ⟨unlocked, []⟩, ⟨unlocked, [unlocked]⟩]

def turnstileText : String := "Locked -> Unlocked->Locked;\n  Unlocked ;Unlocked -> Unlocked;"

theorem turnstile_languages :
    let machine : Source := { text := "pub graph_of_turnstile \x7b " ++ turnstileText ++ " \x7d" }
    let digraph : Source := { text := "digraph graph_of_turnstile \x7b\n  " ++ turnstileText ++ "\n\x7d" }
    turnstile.IsCanonical ∧ Digraph.reference.ReadsTrails ∧
      (∃ m events m' events', Machine.load machine .machine {} [] = .ok m events ∧
        Machine.load digraph .digraph {} [] = .ok m' events' ∧ m.SameUpToSpans m' ∧
        m'.document.name = "graph_of_turnstile" ∧ m'.graph.nodes.keys = ["Locked", "Unlocked"] ∧
        m'.graph.edges.keys = [⟨"Locked", "Unlocked"⟩, ⟨"Unlocked", "Locked"⟩, ⟨"Unlocked", "Unlocked"⟩]) ∧
      ∃ listing events events', machine.compile .machine {} .mermaid none [] = .ok listing events ∧
        digraph.compile .digraph {} .mermaid none [] = .ok listing events' := by
  intro machine digraph
  have hn : turnstile.IsCanonical := by decide +kernel
  have hmachine : LaidOut (machineWords turnstile turnstileTrails) machine.text.toList :=
    laidOut_of_findsWords (by decide +kernel)
  have hdigraph : LaidOut (Digraph.graphWords turnstile turnstileTrails) digraph.text.toList :=
    laidOut_of_findsWords (by decide +kernel)
  obtain ⟨hload, hcompile⟩ :=
    Machine.tally_languages Digraph.reference_readsTrails hn hmachine hdigraph {}
  refine ⟨hn, Digraph.reference_readsTrails, ?_, ?_⟩
  · obtain ⟨m, events, m', events', hm, hm', hsame, hcheck⟩ := hload.exists_of_check
      (p := fun m => decide (m.document.name = "graph_of_turnstile" ∧ m.graph.nodes.keys = ["Locked", "Unlocked"] ∧
        m.graph.edges.keys = [⟨"Locked", "Unlocked"⟩, ⟨"Unlocked", "Locked"⟩, ⟨"Unlocked", "Unlocked"⟩]))
      (by decide +kernel)
    exact ⟨m, events, m', events', hm, hm', hsame, of_decide_eq_true hcheck⟩
  · obtain ⟨listing, events, _, events', hlisting, hlisting', rfl, -⟩ :=
      (hcompile .mermaid none).exists_of_check (p := fun _ => true) (by decide +kernel)
    exact ⟨listing, events, events', hlisting, hlisting'⟩

end Typestate
