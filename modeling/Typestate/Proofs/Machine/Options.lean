import Typestate.Proofs.Grammar.OptionLine
import Typestate.Proofs.Grammar.Rereading
import Typestate.Proofs.Machine.Restating

/-!
Two routes to the options of a machine. Options that a caller passes and options that stand in the generator's
attribute in front of the text come to the same machine, or to a failure of the same kind
(`Machine.tally_options`).
-/

namespace Typestate

open Logged

theorem Choice.settings_comm {c c' : Choice} {x y : Setting} (hx : x ∈ c.settings) (hy : y ∈ c'.settings)
    (h : c.key = c'.key → c = c') (config : Config) : (config.set x).set y = (config.set y).set x := by
  by_cases hkey : x.key = y.key
  · rw [key_of_mem_settings hx, key_of_mem_settings hy] at hkey
    obtain rfl := h hkey
    -- An option has one setting, or one of each of two kinds.
    cases c with
    | entry vis name =>
      rcases List.mem_pair.mp hx with rfl | rfl <;> rcases List.mem_pair.mp hy with rfl | rfl <;> rfl
    | mermaid on => rw [List.mem_singleton.mp hx, List.mem_singleton.mp hy]
    | pathToCore path => rw [List.mem_singleton.mp hx, List.mem_singleton.mp hy]
    | renameMethods on => rw [List.mem_singleton.mp hx, List.mem_singleton.mp hy]
    | trusted on => rw [List.mem_singleton.mp hx, List.mem_singleton.mp hy]
  · exact Config.set_comm hkey config

/-- The settings of different options can be made in any order. -/
theorem Config.update_perm {cs : List Choice} {given : List Setting} (hkeys : (cs.map Choice.key).Nodup)
    (hgiven : given.Perm (cs.flatMap Choice.settings)) (config : Config) :
    config.update given = config.update (cs.flatMap Choice.settings) := by
  refine hgiven.foldl_eq' (fun x hx y hy config => ?_) config
  obtain ⟨c, hc, hx⟩ := List.mem_flatMap.mp (hgiven.subset hx)
  obtain ⟨c', hc', hy⟩ := List.mem_flatMap.mp (hgiven.subset hy)
  exact Choice.settings_comm hx hy (List.inj_on_of_nodup_map hkeys hc hc') config

/-- **Two routes.** Loading a text with options that are passed, and loading it with an attribute in front that holds
the same options, in any order, spelling and layout, either both fail, in the same way, or give the same machine up to
spans; and either both fail to be compiled or are compiled to the same source. The text itself must have a header and
set none of these options. -/
theorem Machine.tally_options {src : Source} {line : String} {cs : List Choice} {ws : List Word}
    {given : List Setting} {d : Document} (hread : src.parse = .ok d) (hheaded : src.isHeaded = true)
    (hkeys : (cs.map Choice.key).Nodup) (hnew : ∀ c ∈ cs, c.key ∉ src.ownKeys)
    (hgiven : given.Perm (cs.flatMap Choice.settings)) (hcs : ChoicesSpelled cs ws)
    (hline : LaidOut (attributeWords ws) line.toList) :
    let passed : Overrides := { settings := given }
    let written : Source := { src with text := line ++ "\n" ++ src.text }
    Tally Failure.SameKind (Machine.load src .machine passed) (Machine.load written) Machine.SameUpToSpans ∧
      ∀ mermaid svg, Tally Failure.SameKind (src.compile .machine passed mermaid svg)
        (written.compile .machine {} mermaid svg) Eq := by
  intro passed written
  obtain ⟨d', hread', hd⟩ :=
    @Source.parse_optionLine src written line cs ws d hcs hkeys hline rfl hread hheaded hnew
  have hsame : (passed.apply d).frame = (({} : Overrides).apply d').frame ∧
      SameMentions d.statements d'.statements := by
    refine ⟨?_, sameMentions_of_withoutSpans (congrArg Document.statements hd).symm⟩
    have hframe : (passed.apply d).frame =
        ({ d with config := d.config.update (cs.flatMap Choice.settings) } : Document).withoutSpans.frame := by
      rw [← Config.update_perm hkeys hgiven]
      rfl
    rw [hframe, ← hd]
    rfl
  have hboth : Tally Failure.SameKind (src.read .machine) (written.read .machine) fun d d' =>
      (passed.apply d).frame = (({} : Overrides).apply d').frame ∧ SameMentions d.statements d'.statements := by
    intro events events'
    simp only [Source.read, hread, hread']
    exact hsame
  exact ⟨Machine.tally_load hboth fun _ _ => trivial,
    Source.tally_compile hboth (fun _ _ => trivial) Failure.SameKind.refl⟩

/-- A door that sets one option itself. -/
def portal : Source := { text := "/// A door.\n#[fsmentry(mermaid(true))]\npub Door \x7b Open -push-> Shut; \x7d" }

def portalLine : String :=
  "#[ fsmentry(entry(pub(in crate::a) Push), unsafe = true, path_to_core=::std, rename_methods(false),)]"

def portalChoices : List Choice :=
  [.entry (.within ⟨false, ⟨"crate", by decide +kernel⟩, [⟨"a", by decide +kernel⟩]⟩) ⟨"Push", by decide +kernel⟩,
    .trusted true, .pathToCore ⟨true, ⟨"std", by decide +kernel⟩, []⟩, .renameMethods false]

def portalSettings : List Setting :=
  [.renameMethods false, .trust .trusted, .pathToCore "::std", .entryName (some "Push"),
    .entryVis (some "pub(in crate::a)")]

theorem portal_options :
    let passed : Overrides := { settings := portalSettings }
    let written : Source := { portal with text := portalLine ++ "\n" ++ portal.text }
    (∃ d, portal.parse = .ok d) ∧ portal.isHeaded = true ∧ (∀ c ∈ portalChoices, c.key ∉ portal.ownKeys) ∧
      (∃ m events m' events', Machine.load portal .machine passed [] = .ok m events ∧
        Machine.load written .machine {} [] = .ok m' events' ∧ m.SameUpToSpans m' ∧
        m'.graph.edges.keys = [⟨"Open", "Shut"⟩] ∧ m'.document.config =
          { mermaid := true, trust := .trusted, renameMethods := false, pathToCore := "::std",
            entryName := some "Push", entryVis := some "pub(in crate::a)" }) ∧
      ∃ listing events events', portal.compile .machine passed .mermaid none [] = .ok listing events ∧
        written.compile .machine {} .mermaid none [] = .ok listing events' := by
  intro passed written
  obtain ⟨-, d, -, hread, -⟩ := portal.exists_parse_of_check (fun _ _ => true) (by decide +kernel)
  have hheaded : portal.isHeaded = true := by decide +kernel
  have hnew : ∀ c ∈ portalChoices, c.key ∉ portal.ownKeys := by decide +kernel
  have hcs : ChoicesSpelled portalChoices _ :=
    .cons .inParens (.cons .equals (.cons .equals (.cons .inParens .nil)))
  obtain ⟨hload, hcompile⟩ := Machine.tally_options hread hheaded (by decide +kernel) hnew
    (by decide +kernel : portalSettings.Perm (portalChoices.flatMap Choice.settings)) hcs
    (laidOut_of_findsWords (by decide +kernel) : LaidOut _ portalLine.toList)
  refine ⟨⟨d, hread⟩, hheaded, hnew, ?_, ?_⟩
  · obtain ⟨m, events, m', events', hm, hm', hsame, hcheck⟩ := hload.exists_of_check
      (p := fun m => decide (m.graph.edges.keys = [⟨"Open", "Shut"⟩] ∧ m.document.config =
        { mermaid := true, trust := .trusted, renameMethods := false, pathToCore := "::std",
          entryName := some "Push", entryVis := some "pub(in crate::a)" }))
      (by decide +kernel)
    exact ⟨m, events, m', events', hm, hm', hsame, of_decide_eq_true hcheck⟩
  · obtain ⟨listing, events, _, events', hlisting, hlisting', rfl, -⟩ :=
      (hcompile .mermaid none).exists_of_check (p := fun _ => true) (by decide +kernel)
    exact ⟨listing, events, events', hlisting, hlisting'⟩

end Typestate
