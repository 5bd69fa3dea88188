import Typestate.Proofs.Graph.MethodNames

/-!
What settling does to each name. The edges out of a node are gone through in the order of their targets.
A derived name stays at the first edge that has it, and every later one gets the least number that makes
a name which was at none of the edges and has been given to none of those in front (`settlesTo_of_get?`).
Names that differ already are left as they are, so that settling them again does nothing
(`settleNames_settles`).
-/

namespace Typestate

/-! ## Edges with others in front -/

/-- The derived method names among some edges. -/
def derivedMethods (out : List (String × Edge)) : List String :=
  (out.filter fun p => !p.2.explicit).map (·.2.methodName)

theorem mem_derivedMethods (out : List (String × Edge)) (name : String) :
    name ∈ derivedMethods out ↔ ∃ p ∈ out, p.2.explicit = false ∧ p.2.methodName = name := by
  simp [derivedMethods, and_assoc]

theorem derivedMethods_explicit (target : String) {e : Edge} (he : e.explicit = true)
    (out : List (String × Edge)) : derivedMethods ((target, e) :: out) = derivedMethods out := by
  simp [derivedMethods, he]

theorem derivedMethods_derived (target : String) {e : Edge} (he : e.explicit = false)
    (out : List (String × Edge)) :
    derivedMethods ((target, e) :: out) = e.methodName :: derivedMethods out := by
  simp [derivedMethods, he]

/-- The names that were given in front count as used behind. -/
theorem numberedFrom_append (names used : List String) (front back : List (String × Edge)) :
    numberedFrom names used (front ++ back) = numberedFrom names used front ++
      numberedFrom names ((derivedMethods (numberedFrom names used front)).reverse ++ used) back := by
  induction front generalizing used with
  | nil => rfl
  | cons p front ih =>
    obtain ⟨target, e⟩ := p
    rw [List.cons_append]
    cases he : e.explicit with
    | true =>
      rw [numberedFrom_explicit names used target he, numberedFrom_explicit names used target he, ih,
        derivedMethods_explicit target he, List.cons_append]
    | false =>
      rw [numberedFrom_derived names used target he, numberedFrom_derived names used target he, ih,
        derivedMethods_derived target (by exact he), List.cons_append, List.reverse_cons,
        List.append_assoc, List.singleton_append]

/-- Numbering neither adds nor removes one of the names that numbers must not make. -/
theorem mem_derivedMethods_numberedFrom {names : List String} {name : String} (hname : name ∈ names)
    (used : List String) (out : List (String × Edge)) :
    name ∈ derivedMethods (numberedFrom names used out) ∨ name ∈ used ↔
      name ∈ derivedMethods out ∨ name ∈ used := by
  induction out generalizing used with
  | nil => rfl
  | cons p out ih =>
    obtain ⟨target, e⟩ := p
    cases he : e.explicit with
    | true =>
      rw [numberedFrom_explicit names used target he, derivedMethods_explicit target he,
        derivedMethods_explicit target he]
      exact ih used
    | false =>
      -- Another name than before is none of `names`, and the one before was used already.
      have hgiven : name ∈ givenName names used e.methodName :: used ↔
          name = e.methodName ∨ name ∈ used := by
        rw [List.mem_cons]
        by_cases hused : e.methodName ∈ used
        · have hne : name ≠ givenName names used e.methodName := by
            intro heq
            rcases givenName_cases names used e.methodName with hsame | ⟨hnew, -⟩
            · have hfresh := givenName_not_mem names used e.methodName
              rw [hsame] at hfresh
              exact hfresh hused
            · rw [heq] at hname
              exact hnew hname
          constructor
          · rintro (heq | hmem)
            · exact absurd heq hne
            · exact Or.inr hmem
          · rintro (rfl | hmem)
            · exact Or.inr hused
            · exact Or.inr hmem
        · rw [givenName, if_neg (by simpa using hused)]
      have hrun := ih (givenName names used e.methodName :: used)
      rw [numberedFrom_derived names used target he, derivedMethods_derived target (by exact he),
        derivedMethods_derived target he, List.mem_cons, List.mem_cons, or_assoc, or_left_comm,
        ← List.mem_cons, hrun, hgiven, or_left_comm, or_assoc]

/-- An explicit name is not numbered, so besides the old names only those of derived methods are new. -/
theorem mem_names_or_numberedFrom {names used : List String} {out : List (String × Edge)}
    (hnames : ∀ p ∈ out, p.2.methodName ∈ names) (name : String) :
    name ∈ names ∨ name ∈ derivedMethods (numberedFrom names used out) ↔
      name ∈ names ∨ ∃ p ∈ numberedFrom names used out, p.2.methodName = name := by
  rw [mem_derivedMethods]
  constructor
  · rintro (hname | ⟨p, hp, -, hn⟩)
    · exact Or.inl hname
    · exact Or.inr ⟨p, hp, hn⟩
  · rintro (hname | ⟨p, hp, rfl⟩)
    · exact Or.inl hname
    · rcases mem_numberedFrom hp with hold | ⟨e, -, he, hsame, -⟩
      · exact Or.inl (hnames p hold)
      · exact Or.inr ⟨p, hp, by rw [hsame]; exact he, rfl⟩

/-- What settling makes of an edge out of a node whose methods have the names, with others in front. -/
def settledEdge (names : List String) (front : List (String × Edge)) (e : Edge) : Edge :=
  if e.explicit then e
  else
    { e with
      methodName := givenName names (derivedMethods (numberedFrom names [] front)).reverse e.methodName }

theorem settledEdge_explicit (names : List String) (front : List (String × Edge)) {e : Edge}
    (he : e.explicit = true) : settledEdge names front e = e := if_pos he

theorem settledEdge_derived (names : List String) (front : List (String × Edge)) {e : Edge}
    (he : e.explicit = false) : settledEdge names front e =
      { e with
        methodName :=
          givenName names (derivedMethods (numberedFrom names [] front)).reverse e.methodName } :=
  if_neg (by simp [he])

theorem settled_append (front back : List (String × Edge)) (target : String) (e : Edge) :
    ∃ back', settled (front ++ (target, e) :: back) =
      numberedFrom ((front ++ (target, e) :: back).map (·.2.methodName)) [] front ++
        (target, settledEdge ((front ++ (target, e) :: back).map (·.2.methodName)) front e) ::
          back' := by
  rw [settled, numberedFrom_append, List.append_nil]
  cases he : e.explicit with
  | true =>
    rw [numberedFrom_explicit _ _ target he, settledEdge_explicit _ _ he]
    exact ⟨_, rfl⟩
  | false =>
    rw [numberedFrom_derived _ _ target he, settledEdge_derived _ _ he]
    exact ⟨_, rfl⟩

/-! ## One edge -/

namespace Graph

variable (g : Graph)

/-- A method out of the node has the name. -/
def UsedAt (source name : String) : Prop :=
  ∃ target e, g.edges.get? ⟨source, target⟩ = some e ∧ e.methodName = name

/-- A method out of the source of the edge has the name and comes in front. -/
def UsedBefore (key : EdgeKey) (name : String) : Prop :=
  ∃ target e, target < key.target ∧ g.edges.get? ⟨key.source, target⟩ = some e ∧ e.methodName = name

/-- A method out of the source of the edge has the name as a derived one and comes in front. -/
def DerivedBefore (key : EdgeKey) (name : String) : Prop :=
  ∃ target e, target < key.target ∧ g.edges.get? ⟨key.source, target⟩ = some e ∧
    e.explicit = false ∧ e.methodName = name

/-- What becomes of an edge when the names in `g` are settled to those in `g'`. -/
structure SettlesTo (g g' : Graph) (key : EdgeKey) (e e' : Edge) : Prop where
  same : e' = { e with methodName := e'.methodName }
  explicit : e.explicit = true → e' = e
  first : e.explicit = false → ¬ g.DerivedBefore key e.methodName → e' = e
  later : e.explicit = false → g.DerivedBefore key e.methodName →
    ∃ n, IsLeast {n | 2 ≤ n ∧ ¬ g.UsedAt key.source (candidate e.methodName n) ∧
        ¬ g'.UsedBefore key (candidate e.methodName n)} n ∧
      e'.methodName = candidate e.methodName n

theorem usedAt_iff (source name : String) :
    g.UsedAt source name ↔ name ∈ (g.leaving source).map (·.2.methodName) := by
  simp [UsedAt, ← mem_leaving]

/-- In front of an edge are the edges that the list of those out of its source has in front. -/
theorem mem_front_iff {key : EdgeKey} {e : Edge} {front back : List (String × Edge)}
    (h : g.leaving key.source = front ++ (key.target, e) :: back) (target : String) (e' : Edge) :
    (target, e') ∈ front ↔ target < key.target ∧ g.edges.get? ⟨key.source, target⟩ = some e' := by
  have hinc := g.increasing_leaving key.source
  rw [h, List.pairwise_append, List.pairwise_cons] at hinc
  obtain ⟨-, ⟨hback, -⟩, hfront⟩ := hinc
  rw [← mem_leaving, h, List.mem_append, List.mem_cons]
  constructor
  · intro hmem
    exact ⟨hfront _ hmem _ (List.mem_cons_self ..), Or.inl hmem⟩
  · rintro ⟨hlt, hmem | heq | hmem⟩
    · exact hmem
    · cases heq
      exact absurd hlt (String.lt_irrefl _)
    · exact absurd hlt (String.lt_asymm (hback _ hmem))

theorem derivedBefore_iff {key : EdgeKey} {e : Edge} {front back : List (String × Edge)}
    (h : g.leaving key.source = front ++ (key.target, e) :: back) (name : String) :
    g.DerivedBefore key name ↔ name ∈ derivedMethods front := by
  simp only [mem_derivedMethods, Prod.exists, g.mem_front_iff h, DerivedBefore, and_assoc]

theorem usedBefore_iff {key : EdgeKey} {e : Edge} {front back : List (String × Edge)}
    (h : g.leaving key.source = front ++ (key.target, e) :: back) (name : String) :
    g.UsedBefore key name ↔ ∃ p ∈ front, p.2.methodName = name := by
  simp only [Prod.exists, g.mem_front_iff h, UsedBefore, and_assoc]

/-- **Settling one edge.** When all names that leave a node are settled, every edge is what becomes of it by itself.
-/
theorem settlesTo_of_get? {g g' : Graph} (h : ∀ s, g'.leaving s = settled (g.leaving s))
    {key : EdgeKey} {e : Edge} (he : g.edges.get? key = some e) :
    ∃ e', g'.edges.get? key = some e' ∧ SettlesTo g g' key e e' := by
  obtain ⟨front, back, hout⟩ := List.append_of_mem ((g.mem_leaving key.source key.target e).mpr he)
  obtain ⟨back', hout'⟩ := settled_append front back key.target e
  rw [← hout, ← h] at hout'
  generalize hnames : (g.leaving key.source).map (·.2.methodName) = names at hout'
  have hfront : ∀ p ∈ front, p.2.methodName ∈ names := by
    intro p hp
    rw [← hnames, hout]
    exact List.mem_map_of_mem (List.mem_append_left _ hp)
  have hname : e.methodName ∈ names := by
    rw [← hnames, hout]
    simp
  have he' : g'.edges.get? key = some (settledEdge names front e) := by
    rw [← mem_leaving, hout']
    simp
  refine ⟨_, he', ?_⟩
  cases hexplicit : e.explicit with
  | true =>
    rw [settledEdge_explicit names front hexplicit]
    have hnot : e.explicit ≠ false := by simp [hexplicit]
    exact ⟨rfl, fun _ => rfl, fun hderived => absurd hderived hnot,
      fun hderived => absurd hderived hnot⟩
  | false =>
    rw [settledEdge_derived names front hexplicit]
    have hagain : e.methodName ∈ (derivedMethods (numberedFrom names [] front)).reverse ↔
        g.DerivedBefore key e.methodName := by
      have hsame := mem_derivedMethods_numberedFrom hname [] front
      simp only [List.not_mem_nil, or_false] at hsame
      rw [List.mem_reverse, hsame, g.derivedBefore_iff hout]
    have hfree : ∀ name, name ∉ names ++ (derivedMethods (numberedFrom names [] front)).reverse ↔
        ¬ g.UsedAt key.source name ∧ ¬ g'.UsedBefore key name := by
      intro name
      rw [g.usedAt_iff, hnames, g'.usedBefore_iff hout', ← not_or, ← mem_names_or_numberedFrom hfront,
        List.mem_append, List.mem_reverse]
    refine ⟨rfl, fun htrue => ?_, fun _ hno => ?_, fun _ hyes => ?_⟩
    · exact absurd htrue (by simp [hexplicit])
    · rw [givenName, if_neg (by simpa using mt hagain.mp hno)]
    · rw [givenName, if_pos (by simpa using hagain.mpr hyes)]
      obtain ⟨n, hleast, hn⟩ := numbered_least e.methodName
        (names ++ (derivedMethods (numberedFrom names [] front)).reverse)
      simp only [hfree] at hleast
      exact ⟨n, hleast, hn⟩

end Graph

/-! ## Settling again -/

theorem clashFree_of_nodup {out : List (String × Edge)} (h : (out.map (·.2.methodName)).Nodup) :
    ClashFree out := by
  refine (List.pairwise_map.mp h).imp ?_
  intro p q hne _
  exact hne

namespace Drafting

variable (source : String)

/-- Where the names differ, none is numbered. -/
theorem numberDerived_eq_ok (explicit : SortedMap String (String × Edge)) (names : List String)
    {used : List String} {out : List (String × Edge)}
    (hexplicit : ∀ p ∈ out, p.2.explicit = false → p.2.methodName ∉ explicit.keys)
    (hnodup : (out.map (·.2.methodName)).Nodup) (hused : ∀ p ∈ out, p.2.methodName ∉ used)
    (d : Draft) : numberDerived source explicit names used out d = .ok () d := by
  induction out generalizing used with
  | nil => rfl
  | cons p out ih =>
    obtain ⟨target, e⟩ := p
    obtain ⟨hexplicit_head, hexplicit⟩ := List.forall_mem_cons.mp hexplicit
    obtain ⟨hused_head, hused⟩ := List.forall_mem_cons.mp hused
    obtain ⟨hnot, hnodup⟩ := List.nodup_cons.mp hnodup
    unfold numberDerived
    by_cases he : e.explicit = true
    · rw [if_pos he]
      exact ih hexplicit hnodup hused
    · rw [if_neg he]
      have hknown := (SortedMap.get?_eq_none_iff _ _).mpr (hexplicit_head (Bool.eq_false_iff.mpr he))
      simp only [hknown, List.contains_eq_mem, hused_head, decide_false, Bool.false_eq_true, ↓reduceIte]
      refine ih hexplicit hnodup fun p hp hmem => ?_
      rcases List.mem_cons.mp hmem with heq | hmem
      · exact hnot (List.mem_map.mpr ⟨p, hp, heq⟩)
      · exact hused p hp hmem

/-- Where the names out of a node differ, settling them does nothing. -/
theorem settleNamesOf_eq_ok {d : Draft}
    (h : ((d.graph.leaving source).map (·.2.methodName)).Nodup) :
    settleNamesOf source d = .ok () d := by
  obtain ⟨hnodup, hderived⟩ := (clashFree_iff _).mp (clashFree_of_nodup h)
  have hdecides := decides_explicitNames source SortedMap.empty (d.graph.leaving source) d
  cases hrun : explicitNames source SortedMap.empty (d.graph.leaving source) d with
  | error fault d' =>
    refine absurd ⟨hnodup, fun name _ => ?_⟩ (hdecides.of_error fault d' hrun).1
    exact List.not_mem_nil
  | ok known d' =>
    obtain ⟨-, rfl, hkeys⟩ := hdecides.of_ok known d' hrun
    change (explicitNames source SortedMap.empty (d'.graph.leaving source) >>= _) d' = .ok () d'
    refine Run.bind_eq_ok_iff.mpr ⟨known, d', hrun, ?_⟩
    refine numberDerived_eq_ok source known _ (fun p hp he hmem => ?_) h (fun _ _ => List.not_mem_nil) d'
    rcases (hkeys p.2.methodName).mp hmem with hnone | hmem
    · cases hnone
    · exact hderived p hp he hmem

/-- Where the names out of every node differ, settling does nothing. -/
theorem settleNames_eq_ok {d : Draft}
    (h : ∀ source, ((d.graph.leaving source).map (·.2.methodName)).Nodup) :
    settleNames d = .ok () d := by
  have hall : ∀ sources : List String, forM sources settleNamesOf d = .ok () d := by
    intro sources
    induction sources with
    | nil => rfl
    | cons source sources ih =>
      rw [List.forM_cons]
      exact Run.bind_eq_ok_iff.mpr ⟨(), d, settleNamesOf_eq_ok source (h source), ih⟩
  exact hall d.graph.sources

/-- **Settled names.** If the names are settled, those out of each node differ, nothing but derived names
has changed, and these as the order of the targets has it. Settling once more succeeds and does nothing.
The search for a number ends whatever is in use. -/
theorem settleNames_settles {d d' : Draft} (h : settleNames d = .ok () d') :
    (∀ source, ((d'.graph.leaving source).map (·.2.methodName)).Nodup) ∧
      d'.graph.nodes = d.graph.nodes ∧ d'.graph.edges.keys = d.graph.edges.keys ∧
      (∀ key e, d.graph.edges.get? key = some e →
        ∃ e', d'.graph.edges.get? key = some e' ∧ Graph.SettlesTo d.graph d'.graph key e e') ∧
      (∀ name used, ∃ n, IsLeast {n | 2 ≤ n ∧ candidate name n ∉ used} n ∧
        numbered name used = candidate name n) ∧
      settleNames d' = .ok () d' := by
  obtain ⟨hfree, hsettled, hnodes⟩ := (decides_settleNames d).of_ok () d' h
  have hnodup : ∀ source, ((d'.graph.leaving source).map (·.2.methodName)).Nodup := by
    intro source
    rw [hsettled]
    exact nodup_settled (hfree source)
  exact ⟨hnodup, hnodes, SortedMap.keys_eq (mem_keys_of_settled hsettled),
    fun _ _ => Graph.settlesTo_of_get? hsettled, numbered_least, settleNames_eq_ok hnodup⟩

end Drafting

/-- A node whose derived method names clash with one another and with what numbers make. -/
def crossing : Draft where
  graph :=
    { edges := SortedMap.ofList [(⟨"Hub", "FOO"⟩, { methodName := "foo" }),
        (⟨"Hub", "Foo"⟩, { methodName := "foo" }), (⟨"Hub", "Foo_2"⟩, { methodName := "foo_2" }),
        (⟨"Hub", "There"⟩, { methodName := "foo_3", explicit := true }),
        (⟨"Hub", "foo"⟩, { methodName := "foo" })] }

theorem crossing_settles : ∃ d', Drafting.settleNames crossing = .ok () d' ∧
    (d'.graph.leaving "Hub").map (·.2.methodName) = ["foo", "foo_4", "foo_2", "foo_3", "foo_5"] ∧
    ((d'.graph.leaving "Hub").map (·.2.methodName)).Nodup ∧
    Drafting.settleNames d' = .ok () d' := by
  have hrun : Drafting.settleNames crossing = .ok () _ := rfl
  obtain ⟨hnodup, -, -, -, -, hagain⟩ := Drafting.settleNames_settles hrun
  exact ⟨_, hrun, by decide +kernel, hnodup "Hub", hagain⟩

end Typestate
