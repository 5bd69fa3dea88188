import Typestate.Proofs.Graph.Building

/-!
Where statements are called invalid. A draft remembers the places of the nodes and the arrows that it was
made of, and a complaint points to one of these or to the place of the whole machine
(`Graph.place_of_ofStatements`).
-/

namespace Typestate

/-- All nodes and edges of the graph are placed in `place`. -/
structure Graph.PlacedIn (place : Option Span → Prop) (g : Graph) : Prop where
  nodes : ∀ name n, g.nodes.get? name = some n → place n.span
  edges : ∀ key e, g.edges.get? key = some e → place e.span

namespace Drafting

variable {α β : Type} {place : Option Span → Prop}

/-- From a draft that is placed, the step comes to an answer in `post` and to a draft that is placed; or it
fails, and what it calls invalid is placed. -/
def Places (place : Option Span → Prop) (step : Drafting α) (post : α → Prop) : Prop :=
  ∀ d : Draft, d.graph.PlacedIn place → match step d with
    | .ok a d' => d'.graph.PlacedIn place ∧ post a
    | .error fault _ => ∀ cause span, fault = .invalid cause span → place span

/-! ## Rules -/

variable {step : Drafting α} {next : α → Drafting β} {post : α → Prop}

theorem places_pure {a : α} (h : post a) : Places place (pure a) post := fun _ hd => ⟨hd, h⟩

/-- **Sequencing.** If a step and whatever follows it blame a place in the same way, both together do. -/
theorem Places.bind {post' : β → Prop} (h : Places place step post)
    (hn : ∀ a, post a → Places place (next a) post') : Places place (step >>= next) post' := by
  intro d hd
  have hfirst := h d hd
  have hbind : (step >>= next) d = EStateM.bind step next d := rfl
  rw [hbind, EStateM.bind]
  cases hrun : step d with
  | ok a d' =>
    rw [hrun] at hfirst
    exact hn a hfirst.2 d' hfirst.1
  | error fault d' =>
    rw [hrun] at hfirst
    exact hfirst

theorem places_forM {ι : Type} {l : List ι} {f : ι → Drafting PUnit}
    (h : ∀ i ∈ l, Places place (f i) fun _ => True) : Places place (forM l f) fun _ => True := by
  induction l with
  | nil => exact places_pure trivial
  | cons i l ih =>
    obtain ⟨hi, hl⟩ := List.forall_mem_cons.mp h
    rw [List.forM_cons]
    exact hi.bind fun _ _ => ih hl

theorem places_get : Places place get fun d => d.graph.PlacedIn place := fun _ hd => ⟨hd, hd⟩

theorem places_fail {cause : ValidationCause} {span : Option Span} (h : place span) :
    Places place (fail cause span) post := by
  rintro d - _ _ ⟨⟩
  exact h

theorem places_putNode {n : Node} (name : String) (h : place n.span) :
    Places place (putNode name n) fun _ => True :=
  fun _ hd => ⟨⟨SortedMap.forall_get?_insert hd.nodes name h, hd.edges⟩, trivial⟩

theorem places_putEdge {e : Edge} (key : EdgeKey) (h : place e.span) :
    Places place (putEdge key e) fun _ => True :=
  fun _ hd => ⟨⟨hd.nodes, SortedMap.forall_get?_insert hd.edges key h⟩, trivial⟩

/-! ## Statements -/

theorem places_addNode {r : NodeRef} (h : place r.span) : Places place (addNode r) fun _ => True := by
  unfold addNode
  refine places_get.bind fun d hd => ?_
  split
  · exact places_putNode _ h
  · next n hn =>
    split
    · exact places_fail h
    · exact places_putNode _ (hd.nodes r.name n hn)

theorem places_addEdge (renameMethods : Bool) (key : EdgeKey) {a : Arrow} (docs : List String)
    (h : place a.span) : Places place (addEdge renameMethods key a docs) fun _ => True := by
  unfold addEdge
  refine places_get.bind fun d _ => ?_
  split
  · exact (places_fail h).bind fun _ (_ : True) => places_putEdge key h
  · exact places_putEdge key h

/-! ## Method names -/

variable {source : String}

theorem places_explicitNames {known : SortedMap String (String × Edge)} {out : List (String × Edge)}
    (hknown : ∀ name p, known.get? name = some p → place p.2.span) (hout : ∀ p ∈ out, place p.2.span) :
    Places place (explicitNames source known out)
      fun known' => ∀ name p, known'.get? name = some p → place p.2.span := by
  induction out generalizing known with
  | nil => exact places_pure hknown
  | cons p out ih =>
    obtain ⟨target, e⟩ := p
    obtain ⟨he, hout⟩ := List.forall_mem_cons.mp hout
    unfold explicitNames
    split
    · exact ih hknown hout
    · split
      · exact places_fail he
      · exact ih (SortedMap.forall_get?_insert hknown _ he) hout

theorem places_numberDerived {known : SortedMap String (String × Edge)} (names used : List String)
    {out : List (String × Edge)} (hknown : ∀ name p, known.get? name = some p → place p.2.span)
    (hout : ∀ p ∈ out, place p.2.span) :
    Places place (numberDerived source known names used out) fun _ => True := by
  induction out generalizing used with
  | nil => exact places_pure trivial
  | cons p out ih =>
    obtain ⟨target, e⟩ := p
    obtain ⟨he, hout⟩ := List.forall_mem_cons.mp hout
    unfold numberDerived
    split
    · exact ih used hout
    · split
      · next rival named hrival => exact places_fail (hknown _ _ hrival)
      · split
        · have hrenamed : ∀ renamed : Rename, Places place (modify fun d : Draft =>
              { d with renames := d.renames ++ [renamed] }) fun _ => True :=
            fun _ _ hd => ⟨hd, trivial⟩
          exact Places.bind (places_putEdge _ he) fun _ _ => (hrenamed _).bind fun _ _ => ih _ hout
        · exact ih _ hout

theorem places_settleNames : Places place settleNames fun _ => True := by
  refine places_get.bind fun d _ => places_forM fun source _ => places_get.bind fun d hd => ?_
  have hout : ∀ p ∈ d.graph.leaving source, place p.2.span := by
    rintro ⟨target, e⟩ hp
    exact hd.edges _ _ ((Graph.mem_leaving _ source target e).mp hp)
  have hnone : ∀ name p, (SortedMap.empty : SortedMap String (String × Edge)).get? name = some p →
      place p.2.span := by
    intro name p hp
    rw [SortedMap.get?_empty] at hp
    cases hp
  exact (places_explicitNames hnone hout).bind fun known hknown =>
    places_numberDerived _ _ hknown hout

/-! ## Building -/

theorem places_checkReserved (reserved : List String) {anchor : Option Span} (hanchor : place anchor) :
    Places place (checkReserved reserved anchor) fun _ => True := by
  unfold checkReserved
  refine places_get.bind fun d hd => ?_
  dsimp only
  split
  · exact places_pure trivial
  · next name _ =>
    split
    · rintro d - _ _ ⟨⟩
    · next n hn =>
      have hnode := hd.nodes name n hn
      refine places_fail ?_
      cases hspan : n.span with
      | none => exact hanchor
      | some span =>
        rw [hspan] at hnode
        exact hnode

theorem places_build (renameMethods : Bool) (reserved : List String) {anchor : Option Span}
    {statements : List Statement} (hanchor : place anchor) (hnodes : ∀ r ∈ mentions statements, place r.span)
    (harrows : ∀ m ∈ edgeMentions statements, place m.arrow.span) :
    Places place (build renameMethods reserved anchor statements) fun _ => True := by
  have hend : Places place (do
      settleNames
      checkReserved reserved anchor
      return (← get).graph) fun _ => True :=
    places_settleNames.bind fun _ _ => (places_checkReserved reserved hanchor).bind fun _ _ =>
      places_get.bind fun _ _ => places_pure trivial
  have hadd : Places place (addStatements renameMethods statements) fun _ => True := by
    rw [addStatements_eq]
    exact (places_forM fun r hr => places_addNode (hnodes r hr)).bind fun _ _ =>
      places_forM fun m hm => places_addEdge renameMethods m.key m.docs (harrows m hm)
  unfold build
  refine hadd.bind fun _ _ => places_get.bind fun d _ => ?_
  split
  · exact (places_fail hanchor).bind fun _ (_ : True) => hend
  · exact hend

end Drafting

theorem Graph.placedIn_empty (place : Option Span → Prop) : PlacedIn place {} := ⟨nofun, nofun⟩

/-- **Blame.** What is invalid about statements is placed where one of their nodes or arrows is, or where
the machine is. -/
theorem Graph.place_of_ofStatements {place : Option Span → Prop} {renameMethods : Bool}
    {reserved : List String} {anchor : Option Span} {statements : List Statement} {fault : DraftFault}
    (h : ofStatements renameMethods reserved anchor statements = .error fault) (hanchor : place anchor)
    (hnodes : ∀ r ∈ mentions statements, place r.span)
    (harrows : ∀ m ∈ edgeMentions statements, place m.arrow.span) :
    ∃ cause span, fault = .invalid cause span ∧ place span := by
  obtain ⟨-, cause, span, rfl⟩ := invalid_of_ofStatements h
  refine ⟨cause, span, rfl, ?_⟩
  have hplaces := Drafting.places_build renameMethods reserved hanchor hnodes harrows {} (placedIn_empty place)
  unfold ofStatements at h
  split at h
  · cases h
  · next hrun =>
    cases h
    rw [hrun] at hplaces
    exact hplaces cause span rfl

end Typestate
