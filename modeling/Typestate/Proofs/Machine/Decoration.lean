import Mathlib.Data.List.Forall2
import Typestate.Proofs.Comparison

/-!
What diagrams do to the source of a machine. They never change code: a drawing adds documentation to the
first item and a mermaid diagram to the second one, each behind what is there, and a renderer that declines
adds nothing (`Source.compile_decorates`).
-/

namespace Typestate

open Logged

namespace Code

/-- The item with more documentation at its end. -/
def Item.extend (i : Item) (more : List String) : Item := { i with docs := i.docs ++ more }

theorem Item.addDocs_eq_extend (i : Item) (docs : List String) : ∃ more, i.addDocs docs = i.extend more := by
  unfold addDocs extend joinDocs
  cases hdocs : i.docs with
  | nil => exact ⟨docs, rfl⟩
  | cons doc rest =>
    cases docs with
    | nil => exact ⟨[], by rw [List.append_nil]; rfl⟩
    | cons new others => exact ⟨"" :: new :: others, rfl⟩

namespace Listing

/-- The second listing is the first one with more documentation at the end of the item at `index`. -/
def AddsAt (index : Nat) (plain decorated : Listing) : Prop :=
  ∃ more, decorated.items = plain.items.modify index (·.extend more)

/-- The two listings have the same code item by item. The second one may have more documentation at the
ends of its first two items. -/
structure Decorates (plain decorated : Listing) : Prop where
  bodies : decorated.items.map (·.body) = plain.items.map (·.body)
  attrs : decorated.items.map (·.attrs) = plain.items.map (·.attrs)
  docs : List.Forall₂ (fun i i' => i.docs <+: i'.docs) plain.items decorated.items
  others : decorated.items.drop 2 = plain.items.drop 2

variable {plain between decorated : Listing}

theorem addsAt_refl (index : Nat) (u : Listing) : AddsAt index u u := by
  refine ⟨[], ?_⟩
  have hsame : (fun i : Item => i.extend []) = id := by
    funext i
    simp [Item.extend]
  rw [hsame, List.modify_id]

theorem addsAt_addDocs (u : Listing) (docs : List String) : AddsAt 0 u (u.addDocs docs) := by
  unfold AddsAt addDocs
  cases u.items with
  | nil => exact ⟨[], rfl⟩
  | cons i others =>
    obtain ⟨more, hmore⟩ := i.addDocs_eq_extend docs
    exact ⟨more, by simp [hmore]⟩

theorem addDocs_nil (u : Listing) : u.addDocs [] = u := by
  have hsame : (fun i : Item => i.addDocs []) = id := by
    funext i
    rcases i with ⟨body, _ | ⟨doc, docs⟩, attrs⟩ <;> rfl
  unfold addDocs
  rw [hsame, List.modify_id]

/-- What is added to the first item does not tell what was added to the second. -/
theorem AddsAt.addDocs (h : AddsAt 1 plain decorated) (docs : List String) :
    AddsAt 1 (plain.addDocs docs) (decorated.addDocs docs) := by
  obtain ⟨more, hmore⟩ := h
  refine ⟨more, ?_⟩
  unfold Listing.addDocs
  rw [hmore]
  rcases plain.items with _ | ⟨first, _ | ⟨second, others⟩⟩ <;> rfl

theorem Decorates.of_addsAt (hsecond : AddsAt 1 plain between) (hfirst : AddsAt 0 between decorated) :
    Decorates plain decorated := by
  obtain ⟨diagram, hbetween⟩ := hsecond
  obtain ⟨drawing, hitems⟩ := hfirst
  rw [hbetween] at hitems
  rcases hplain : plain.items with _ | ⟨first, _ | ⟨second, others⟩⟩ <;> rw [hplain] at hitems <;>
    constructor <;> simp [hplain, hitems, Item.extend]

end Listing

end Code

/-! ## The option for a diagram -/

/-- The wishes of a caller, who also wants a mermaid diagram or does not. -/
def Overrides.wanting (o : Overrides) (diagram : Bool) : Overrides :=
  { o with settings := o.settings ++ [.mermaid diagram] }

/-- The machine, if its document wanted a mermaid diagram or did not. -/
def Machine.wanting (m : Machine) (diagram : Bool) : Machine :=
  { m with document := { m.document with config := { m.document.config with mermaid := diagram } } }

theorem Overrides.apply_wanting (o : Overrides) (diagram : Bool) (d : Document) :
    (o.wanting diagram).apply d =
      { o.apply d with config := { (o.apply d).config with mermaid := diagram } } := by
  unfold apply wanting Config.update
  rw [List.foldl_append]
  rfl

/-- A machine is loaded in the same way whether a diagram is wanted or not. -/
theorem alike_load_wanting (src : Source) (language : Language) (o : Overrides) (diagram : Bool) :
    Alike (Machine.load src language (o.wanting diagram)) (Machine.load src language o)
      fun m₀ m => m₀ = m.wanting diagram := by
  unfold Machine.load
  refine Alike.bind (steady_read src language) ?_
  rintro d _ rfl
  refine Alike.bind ((yields_overrides (o.wanting diagram) d).alike (yields_overrides o d)) ?_
  rintro _ _ ⟨rfl, rfl⟩
  rw [Overrides.apply_wanting]
  refine Alike.bind (steady_buildGraph (o.apply d) src.file (some src.text)) ?_
  rintro g _ rfl
  exact alike_pure rfl

/-! ## Diagrams -/

theorem steady_render (r : Renderer) (diagram : String) : Steady (r.render diagram) := by
  cases r with
  | graphviz program =>
    change Steady program.render
    unfold Graphviz.render
    split
    · exact steady_pure _
    · split
      · exact fun _ _ => rfl
      · exact (steady_note _).bind fun _ => steady_pure _
  | _ => exact fun _ _ => rfl

namespace Machine

variable {m : Machine} {mermaid r : Renderer}

/-- The renderer comes to a result in `post` on the mermaid diagram of the machine, if that is wanted. -/
def MermaidYields (m : Machine) (mermaid : Renderer) (post : Option String → Prop) : Prop :=
  m.document.config.mermaid = true → (mermaid.render m.graph.toMermaid).Yields post

/-- The renderer, if there is one, comes to a result in `post` on the drawing of the machine. -/
def SvgYields (m : Machine) (svg : Option Renderer) (post : Option String → Prop) : Prop :=
  ∀ r ∈ svg, (r.render (m.graph.toDot m.document.name)).Yields post

theorem yields_mermaidDocs (h : m.MermaidYields mermaid fun _ => True) :
    (m.mermaidDocs mermaid).Yields fun _ => True := by
  unfold mermaidDocs
  cases hwanted : m.document.config.mermaid with
  | false => exact yields_pure trivial
  | true =>
    refine (h hwanted).bind fun markup _ => ?_
    cases markup <;> exact yields_pure trivial

theorem mermaidDocs_eq_nil (h : m.MermaidYields mermaid (· = none)) :
    (m.mermaidDocs mermaid).Yields (· = []) := by
  unfold mermaidDocs
  cases hwanted : m.document.config.mermaid with
  | false => exact yields_pure rfl
  | true =>
    refine (h hwanted).bind ?_
    rintro _ rfl
    exact yields_pure rfl

theorem steady_svgDocs (m : Machine) (r : Renderer) : Steady (m.svgDocs r) := by
  refine (steady_render r _).bind fun markup => ?_
  cases markup <;> exact steady_pure _

/-- The documentation for a mermaid diagram is all that the option for it changes. -/
theorem alike_generate_wanting {post : List String → Prop}
    (hdocs : (m.mermaidDocs mermaid).Yields post) {related : Code.Listing → Code.Listing → Prop}
    (hrelated : ∀ api nodes docs, post docs → related
      ⟨(Code.declarations m.document (Code.entryDocs m.document.name) nodes).map
        (Code.Declaration.item api)⟩
      ⟨(Code.declarations m.document (Code.entryDocs m.document.name ++ docs) nodes).map
        (Code.Declaration.item api)⟩) :
    Alike ((m.wanting false).generate mermaid) (m.generate mermaid) related := by
  unfold generate
  refine Alike.bind (steady_ofExcept _) ?_
  rintro api _ rfl
  refine Alike.bind (steady_ofExcept _) ?_
  rintro nodes _ rfl
  have hnone : (pure [] : Logged (List String)).Yields (· = []) := yields_pure rfl
  refine Alike.bind (hnone.alike hdocs) ?_
  rintro _ docs ⟨rfl, hpost⟩
  refine Alike.bind ((yields_note _).alike (yields_note _)) fun _ _ _ => alike_pure ?_
  rw [List.append_nil]
  exact hrelated api nodes docs hpost

theorem alike_generate_addsAt (h : m.MermaidYields mermaid fun _ => True) :
    Alike ((m.wanting false).generate mermaid) (m.generate mermaid) (Code.Listing.AddsAt 1) :=
  alike_generate_wanting (yields_mermaidDocs h) fun _ _ docs _ => ⟨docs, rfl⟩

theorem alike_generate_eq (h : m.MermaidYields mermaid (· = none)) :
    Alike ((m.wanting false).generate mermaid) (m.generate mermaid) Eq := by
  refine alike_generate_wanting (mermaidDocs_eq_nil h) ?_
  rintro _ _ _ rfl
  rw [List.append_nil]

theorem steady_generate (m : Machine) (mermaid : Renderer) : Steady (m.generate mermaid) := by
  have hdocs : Steady (m.mermaidDocs mermaid) := by
    unfold mermaidDocs
    split
    · exact steady_pure _
    · refine (steady_render mermaid _).bind fun markup => ?_
      cases markup <;> exact steady_pure _
  exact (steady_ofExcept _).bind fun _ => (steady_ofExcept _).bind fun _ => hdocs.bind fun _ =>
    (steady_note _).bind fun _ => steady_pure _

/-- The documentation for a drawing is all that a renderer for it changes. -/
theorem alike_compile_svg {r : Renderer} {post : List String → Prop} (hdocs : (m.svgDocs r).Yields post)
    {related : Code.Listing → Code.Listing → Prop}
    (hrelated : ∀ unit docs, post docs → related unit (unit.addDocs docs)) :
    Alike (m.compile mermaid none) (m.compile mermaid (some r)) related := by
  refine Alike.bind (steady_generate m mermaid) ?_
  rintro unit _ rfl
  have hlisting : (m.svgDocs r >>= fun docs => pure (unit.addDocs docs)).Yields (related unit) :=
    hdocs.bind fun docs hpost => yields_pure (hrelated unit docs hpost)
  refine ((yields_pure rfl).alike hlisting).weaken ?_
  rintro _ _ ⟨rfl, hunit⟩
  exact hunit

theorem alike_compile_addsAt {svg : Option Renderer} (h : m.SvgYields svg fun _ => True) :
    Alike (m.compile mermaid none) (m.compile mermaid svg) (Code.Listing.AddsAt 0) := by
  cases svg with
  | none =>
    refine Alike.bind (steady_generate m mermaid) ?_
    rintro unit _ rfl
    exact alike_pure (Code.Listing.addsAt_refl 0 unit)
  | some r =>
    have hdocs : (m.svgDocs r).Yields fun _ => True := by
      refine (h r rfl).bind fun markup _ => ?_
      cases markup <;> exact yields_pure trivial
    exact alike_compile_svg hdocs fun unit docs _ => Code.Listing.addsAt_addDocs unit docs

theorem alike_compile_eq {svg : Option Renderer} (h : m.SvgYields svg (· = none)) :
    Alike (m.compile mermaid none) (m.compile mermaid svg) Eq := by
  cases svg with
  | none => exact (steady_generate m mermaid).bind fun unit => steady_pure unit
  | some r =>
    have hdocs : (m.svgDocs r).Yields (· = []) := by
      refine (h r rfl).bind ?_
      rintro _ rfl
      exact yields_pure rfl
    refine alike_compile_svg hdocs ?_
    rintro unit _ rfl
    exact unit.addDocs_nil.symm

/-- What is generated for a machine that wants a mermaid diagram, and for one that does not, gets the same
drawing. -/
theorem alike_compile_wanting {svg : Option Renderer} {related : Code.Listing → Code.Listing → Prop}
    (h : Alike ((m.wanting false).generate mermaid) (m.generate mermaid) related)
    (hrelated : ∀ unit unit' docs, related unit unit' → related (unit.addDocs docs) (unit'.addDocs docs)) :
    Alike ((m.wanting false).compile mermaid svg) (m.compile mermaid svg) related := by
  refine h.bind fun unit unit' hunits => ?_
  cases svg with
  | none => exact alike_pure hunits
  | some r =>
    refine Alike.bind (steady_svgDocs m r) ?_
    rintro docs _ rfl
    exact alike_pure (hrelated unit unit' docs hunits)

end Machine

/-! ## Texts -/

namespace Source

/-- Read a machine and write its source. -/
def compile (src : Source) (language : Language) (o : Overrides) (mermaid : Renderer)
    (svg : Option Renderer) : Logged Code.Listing := do
  (← Machine.load src language o).compile mermaid svg

/-- The text holds this machine. -/
def Holds (src : Source) (language : Language) (o : Overrides) (m : Machine) : Prop :=
  ∃ events events', Machine.load src language o events = .ok m events'

variable {src : Source} {language : Language} {o : Overrides} {mermaid : Renderer}
  {svg : Option Renderer} {related : Code.Listing → Code.Listing → Prop}

theorem alike_compile_svg
    (h : ∀ m, src.Holds language o m →
      Alike (m.compile mermaid none) (m.compile mermaid svg) related) :
    Alike (src.compile language o mermaid none) (src.compile language o mermaid svg) related := by
  refine Alike.bind_of_ok (steady_load src language o) ?_
  rintro m _ rfl hholds
  exact h m hholds

theorem alike_compile_wanting
    (h : ∀ m, src.Holds language o m →
      Alike ((m.wanting false).compile mermaid svg) (m.compile mermaid svg) related) :
    Alike (src.compile language (o.wanting false) mermaid svg)
      (src.compile language o mermaid svg) related := by
  refine Alike.bind_of_ok (alike_load_wanting src language o false) ?_
  rintro _ m rfl hholds
  exact h m hholds

theorem alike_compile_addsAt_first
    (hsvg : ∀ m, src.Holds language o m → m.SvgYields svg fun _ => True) :
    Alike (src.compile language o mermaid none) (src.compile language o mermaid svg)
      (Code.Listing.AddsAt 0) :=
  alike_compile_svg fun m hm => Machine.alike_compile_addsAt (hsvg m hm)

theorem alike_compile_addsAt_second
    (hmermaid : ∀ m, src.Holds language o m → m.MermaidYields mermaid fun _ => True) :
    Alike (src.compile language (o.wanting false) mermaid svg) (src.compile language o mermaid svg)
      (Code.Listing.AddsAt 1) :=
  alike_compile_wanting fun m hm =>
    Machine.alike_compile_wanting (Machine.alike_generate_addsAt (hmermaid m hm))
      fun _ _ docs h => h.addDocs docs

/-- **Decoration.** Whatever renderers are given and whatever diagrams are wanted, a text is compiled to
the same code as without any diagram, or there is the same complaint about it, as long as the renderers
in use do not fail. A drawing adds documentation to the end of the first item, and a mermaid diagram to the
end of the second. A renderer that declines adds nothing. -/
theorem compile_decorates (src : Source) (language : Language) (o : Overrides) (mermaid : Renderer)
    (svg : Option Renderer) :
    ((∀ m, src.Holds language o m → m.MermaidYields mermaid fun _ => True) →
      (∀ m, src.Holds language o m → m.SvgYields svg fun _ => True) →
      Alike (src.compile language (o.wanting false) mermaid none) (src.compile language o mermaid svg)
        Code.Listing.Decorates) ∧
    ((∀ m, src.Holds language o m → m.SvgYields svg fun _ => True) →
      Alike (src.compile language o mermaid none) (src.compile language o mermaid svg)
        (Code.Listing.AddsAt 0)) ∧
    ((∀ m, src.Holds language o m → m.MermaidYields mermaid fun _ => True) →
      Alike (src.compile language (o.wanting false) mermaid svg) (src.compile language o mermaid svg)
        (Code.Listing.AddsAt 1)) ∧
    ((∀ m, src.Holds language o m → m.SvgYields svg (· = none)) →
      Alike (src.compile language o mermaid none) (src.compile language o mermaid svg) Eq) ∧
    ((∀ m, src.Holds language o m → m.MermaidYields mermaid (· = none)) →
      Alike (src.compile language (o.wanting false) mermaid svg) (src.compile language o mermaid svg)
        Eq) := by
  refine ⟨fun hmermaid hsvg => ?_, alike_compile_addsAt_first, alike_compile_addsAt_second,
    fun hdeclines => ?_, fun hdeclines => ?_⟩
  · refine ((alike_compile_addsAt_second hmermaid).trans (alike_compile_addsAt_first hsvg)).weaken ?_
    rintro plain decorated ⟨between, hsecond, hfirst⟩
    exact .of_addsAt hsecond hfirst
  · exact alike_compile_svg fun m hm => Machine.alike_compile_eq (hdeclines m hm)
  · refine alike_compile_wanting fun m hm => ?_
    refine Machine.alike_compile_wanting (Machine.alike_generate_eq (hdeclines m hm)) ?_
    rintro unit _ docs rfl
    rfl

/-- A gate with a mermaid diagram. -/
def gate : Source := { text := "#[fsmentry(mermaid = true)] Gate \x7b Shut -> Open; \x7d" }

/-- A drawing of any machine. -/
def frame : Option Renderer := some (.constant "<svg/>")

/-- The documentation of the first two items, if the text is compiled. -/
def frontDocs (run : Logged Code.Listing) : Option (List (List String)) :=
  run.outcome.1.toOption.map fun unit => (unit.items.take 2).map (·.docs)

theorem gate_compile_decorates :
    (∀ m, gate.Holds .machine {} m → m.MermaidYields (.function some) fun _ => True) ∧
    (∀ m, gate.Holds .machine {} m → m.SvgYields frame fun _ => True) ∧
    ∃ plain decorated events events',
      gate.compile .machine (Overrides.wanting {} false) (.function some) none [] = .ok plain events ∧
      gate.compile .machine {} (.function some) frame [] = .ok decorated events' ∧
      Code.Listing.Decorates plain decorated ∧
      (plain.items.take 2).map (·.docs) = [[], Code.entryDocs "Gate"] ∧
      (decorated.items.take 2).map (·.docs) = [["<div><svg/></div>"],
        Code.entryDocs "Gate" ++ ["", "graph LR\n  Shut --> Open;\n"]] := by
  have hmermaid : ∀ m, gate.Holds .machine {} m → m.MermaidYields (.function some) fun _ => True :=
    fun m _ _ events => ⟨_, events, rfl, trivial⟩
  have hsvg : ∀ m, gate.Holds .machine {} m → m.SvgYields frame fun _ => True := by
    rintro m - r ⟨⟩ events
    exact ⟨_, events, rfl, trivial⟩
  have hplain : frontDocs (gate.compile .machine (Overrides.wanting {} false) (.function some) none) =
      some [[], Code.entryDocs "Gate"] := by decide +kernel
  have hdecorated : frontDocs (gate.compile .machine {} (.function some) frame) =
      some [["<div><svg/></div>"], Code.entryDocs "Gate" ++ ["", "graph LR\n  Shut --> Open;\n"]] := by
    decide +kernel
  have hboth := (compile_decorates gate .machine {} (.function some) frame).1 hmermaid hsvg [] []
  unfold frontDocs outcome at hplain hdecorated
  split at hboth
  · next plain events decorated events' hrun hrun' =>
    rw [hrun] at hplain
    rw [hrun'] at hdecorated
    exact ⟨hmermaid, hsvg, plain, decorated, events, events', hrun, hrun', hboth,
      Option.some.inj hplain, Option.some.inj hdecorated⟩
  · next hrun _ =>
    rw [hrun] at hplain
    cases hplain
  · exact hboth.elim

end Source

end Typestate
