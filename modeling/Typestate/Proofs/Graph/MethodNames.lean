import Typestate.Proofs.Graph.Drafting
import Typestate.Proofs.Graph.Leaving
import Typestate.Proofs.Numbering

/-!
How the methods out of the nodes get different names. Settling the names decides whether the edges out
of each node are free of clashes with explicit names, and replaces what leaves each node by `settled` of
it, all else being kept (`decides_settleNames`). The names that it gives are different
(`nodup_settled`).
-/

namespace Typestate

/-! ## Names out of one node -/

/-- The explicit method names among some edges. -/
def explicitMethods (out : List (String × Edge)) : List String :=
  (out.filter (·.2.explicit)).map (·.2.methodName)

/-- No two methods have the same name, one of which at least is explicit. -/
def ClashFree (out : List (String × Edge)) : Prop :=
  out.Pairwise fun a b =>
    a.2.explicit = true ∨ b.2.explicit = true → a.2.methodName ≠ b.2.methodName

/-- The edges with the names that their methods end up with: a derived name that is among `used` is
numbered, and what numbering makes is among neither `names` nor `used`. -/
def numberedFrom (names used : List String) : List (String × Edge) → List (String × Edge)
  | [] => []
  | (target, e) :: rest =>
    if e.explicit then (target, e) :: numberedFrom names used rest
    else
      let name := if used.contains e.methodName then numbered e.methodName (names ++ used)
        else e.methodName
      (target, { e with methodName := name }) :: numberedFrom names (name :: used) rest

/-- The edges out of a node with their final names. -/
def settled (out : List (String × Edge)) : List (String × Edge) :=
  numberedFrom (out.map (·.2.methodName)) [] out

theorem mem_explicitMethods (out : List (String × Edge)) (name : String) :
    name ∈ explicitMethods out ↔ ∃ p ∈ out, p.2.explicit = true ∧ p.2.methodName = name := by
  simp only [explicitMethods, List.mem_map, List.mem_filter]
  constructor
  · rintro ⟨p, ⟨hp, he⟩, hn⟩
    exact ⟨p, hp, he, hn⟩
  · rintro ⟨p, hp, he, hn⟩
    exact ⟨p, ⟨hp, he⟩, hn⟩

theorem explicitMethods_cons (p : String × Edge) (out : List (String × Edge)) :
    explicitMethods (p :: out) =
      if p.2.explicit then p.2.methodName :: explicitMethods out else explicitMethods out := by
  cases h : p.2.explicit <;> simp [explicitMethods, h]

/-- Being free of clashes is what the two passes over the edges check one after the other. -/
theorem clashFree_iff (out : List (String × Edge)) :
    ClashFree out ↔ (explicitMethods out).Nodup ∧
      ∀ p ∈ out, p.2.explicit = false → p.2.methodName ∉ explicitMethods out := by
  induction out with
  | nil => simp [ClashFree, explicitMethods]
  | cons p out ih =>
    rw [ClashFree, List.pairwise_cons, ← ClashFree, ih, explicitMethods_cons]
    cases hp : p.2.explicit with
    | true =>
      simp only [true_or, forall_const, ↓reduceIte, List.nodup_cons, List.mem_cons]
      constructor
      · rintro ⟨hhead, hnodup, hderived⟩
        refine ⟨⟨fun hmem => ?_, hnodup⟩, ?_⟩
        · obtain ⟨q, hq, -, hn⟩ := (mem_explicitMethods _ _).mp hmem
          exact hhead q hq hn.symm
        · rintro q (rfl | hq) hqe
          · rw [hp] at hqe
            cases hqe
          · rintro (hn | hn)
            · exact hhead q hq hn.symm
            · exact hderived q hq hqe hn
      · rintro ⟨⟨hnot, hnodup⟩, hderived⟩
        refine ⟨fun q hq hn => ?_, hnodup, fun q hq hqe hmem => ?_⟩
        · cases hqe : q.2.explicit with
          | true => exact hnot ((mem_explicitMethods _ _).mpr ⟨q, hq, hqe, hn.symm⟩)
          | false => exact hderived q (Or.inr hq) hqe (Or.inl hn.symm)
        · exact hderived q (Or.inr hq) hqe (Or.inr hmem)
    | false =>
      simp only [Bool.false_eq_true, false_or, ↓reduceIte, List.mem_cons]
      constructor
      · rintro ⟨hhead, hnodup, hderived⟩
        refine ⟨hnodup, ?_⟩
        rintro q (rfl | hq) hqe hmem
        · obtain ⟨q', hq', he, hn⟩ := (mem_explicitMethods _ _).mp hmem
          exact hhead q' hq' he hn.symm
        · exact hderived q hq hqe hmem
      · rintro ⟨hnodup, hderived⟩
        refine ⟨fun q hq hqe hn => ?_, hnodup, fun q hq => hderived q (Or.inr hq)⟩
        exact hderived p (Or.inl rfl) hp ((mem_explicitMethods _ _).mpr ⟨q, hq, hqe, hn.symm⟩)

/-- The name that a derived method gets, where `used` are taken and nothing new may be in `names`. -/
def givenName (names used : List String) (name : String) : String :=
  if used.contains name then numbered name (names ++ used) else name

theorem givenName_cases (names used : List String) (name : String) :
    givenName names used name = name ∨ givenName names used name ∉ names ∧
      ∃ used', givenName names used name = numbered name used' := by
  unfold givenName
  split
  · right
    exact ⟨fun h => numbered_not_mem _ _ (List.mem_append_left _ h), _, rfl⟩
  · exact Or.inl rfl

theorem givenName_not_mem (names used : List String) (name : String) :
    givenName names used name ∉ used := by
  unfold givenName
  split
  · exact fun h => numbered_not_mem _ _ (List.mem_append_right _ h)
  · next h => simpa using h

theorem numberedFrom_explicit (names used : List String) (target : String) {e : Edge}
    (he : e.explicit = true) (out : List (String × Edge)) :
    numberedFrom names used ((target, e) :: out) = (target, e) :: numberedFrom names used out := by
  rw [numberedFrom, if_pos he]

theorem numberedFrom_derived (names used : List String) (target : String) {e : Edge}
    (he : e.explicit = false) (out : List (String × Edge)) :
    numberedFrom names used ((target, e) :: out) =
      (target, { e with methodName := givenName names used e.methodName }) ::
        numberedFrom names (givenName names used e.methodName :: used) out := by
  rw [numberedFrom, if_neg (by simp [he])]
  rfl

/-- Numbering changes nothing but the names of derived methods, and the names that it makes are none
of `names`. -/
theorem mem_numberedFrom {names used : List String} {out : List (String × Edge)}
    {p : String × Edge} (h : p ∈ numberedFrom names used out) :
    p ∈ out ∨ ∃ e, (p.1, e) ∈ out ∧ e.explicit = false ∧
      p.2 = { e with methodName := p.2.methodName } ∧ p.2.methodName ∉ names ∧
        ∃ used', p.2.methodName = numbered e.methodName used' := by
  induction out generalizing used with
  | nil => cases h
  | cons q out ih =>
    obtain ⟨target, e⟩ := q
    have hrest : ∀ used, p ∈ numberedFrom names used out → p ∈ (target, e) :: out ∨
        ∃ e', (p.1, e') ∈ (target, e) :: out ∧ e'.explicit = false ∧
          p.2 = { e' with methodName := p.2.methodName } ∧ p.2.methodName ∉ names ∧
            ∃ used', p.2.methodName = numbered e'.methodName used' := by
      intro used hmem
      rcases ih hmem with hp | ⟨e', he', hrest⟩
      · exact Or.inl (List.mem_cons_of_mem _ hp)
      · exact Or.inr ⟨e', List.mem_cons_of_mem _ he', hrest⟩
    cases he : e.explicit with
    | true =>
      rw [numberedFrom_explicit names used target he] at h
      rcases List.mem_cons.mp h with rfl | h
      · exact Or.inl (List.mem_cons_self ..)
      · exact hrest _ h
    | false =>
      rw [numberedFrom_derived names used target he] at h
      rcases List.mem_cons.mp h with rfl | h
      · rcases givenName_cases names used e.methodName with hsame | ⟨hnew, hnumbered⟩
        · left
          rw [hsame]
          exact List.mem_cons_self ..
        · exact Or.inr ⟨e, List.mem_cons_self .., he, rfl, hnew, hnumbered⟩
      · exact hrest _ h

theorem numberedFrom_targets (names used : List String) (out : List (String × Edge)) :
    (numberedFrom names used out).map (·.1) = out.map (·.1) := by
  induction out generalizing used with
  | nil => rfl
  | cons q out ih =>
    obtain ⟨target, e⟩ := q
    unfold numberedFrom
    split <;> simp [ih]

/-- If nothing clashes, the final names are different and none of the derived ones was used before. -/
theorem nodup_numberedFrom {names used : List String} {out : List (String × Edge)}
    (hclash : ClashFree out) (hnames : ∀ p ∈ out, p.2.methodName ∈ names)
    (hused : ∀ name ∈ explicitMethods out, name ∉ used) :
    ((numberedFrom names used out).map (·.2.methodName)).Nodup ∧
      ∀ p ∈ numberedFrom names used out, p.2.methodName ∉ used := by
  induction out generalizing used with
  | nil => exact ⟨List.nodup_nil, fun p hp => by cases hp⟩
  | cons q out ih =>
    obtain ⟨target, e⟩ := q
    obtain ⟨hhead, htail⟩ := List.pairwise_cons.mp hclash
    have hnames' : ∀ p ∈ out, p.2.methodName ∈ names :=
      fun p hp => hnames p (List.mem_cons_of_mem _ hp)
    rw [explicitMethods_cons] at hused
    cases he : e.explicit with
    | true =>
      rw [numberedFrom_explicit names used target he]
      simp only [he, ↓reduceIte] at hused
      have hold : ∀ name ∈ explicitMethods out, name ∉ used :=
        fun name hn => hused name (List.mem_cons_of_mem _ hn)
      obtain ⟨hnodup, hfresh⟩ := ih htail hnames' hold
      refine ⟨List.nodup_cons.mpr ⟨fun hmem => ?_, hnodup⟩, ?_⟩
      · obtain ⟨p, hp, hn⟩ := List.mem_map.mp hmem
        rcases mem_numberedFrom hp with hp | ⟨-, -, -, -, hnew, -⟩
        · exact hhead p hp (Or.inl he) hn.symm
        · rw [hn] at hnew
          exact hnew (hnames (target, e) (List.mem_cons_self ..))
      · intro p hp
        rcases List.mem_cons.mp hp with rfl | hp
        · exact hused _ (List.mem_cons_self ..)
        · exact hfresh p hp
    | false =>
      rw [numberedFrom_derived names used target he]
      simp only [he, Bool.false_eq_true, ↓reduceIte] at hused
      -- The name given here is taken for the rest, where no explicit method has it.
      have hold : ∀ n ∈ explicitMethods out, n ∉ givenName names used e.methodName :: used := by
        intro n hn hmem
        rcases List.mem_cons.mp hmem with hgiven | hmem
        · obtain ⟨p, hp, hpe, hpn⟩ := (mem_explicitMethods _ _).mp hn
          rw [← hpn] at hgiven
          rcases givenName_cases names used e.methodName with hsame | ⟨hnew, -⟩
          · exact hhead p hp (Or.inr hpe) (hsame ▸ hgiven.symm)
          · exact hnew (hgiven ▸ hnames' p hp)
        · exact hused n hn hmem
      obtain ⟨hnodup, hfresh⟩ := ih htail hnames' hold
      refine ⟨List.nodup_cons.mpr ⟨fun hmem => ?_, hnodup⟩, ?_⟩
      · obtain ⟨p, hp, hn⟩ := List.mem_map.mp hmem
        exact hfresh p hp (by rw [hn]; exact List.mem_cons_self ..)
      · intro p hp
        rcases List.mem_cons.mp hp with rfl | hp
        · exact givenName_not_mem names used e.methodName
        · exact fun h => hfresh p hp (List.mem_cons_of_mem _ h)

/-- **Uniqueness.** The final names of the methods out of a node are different. -/
theorem nodup_settled {out : List (String × Edge)} (h : ClashFree out) :
    ((settled out).map (·.2.methodName)).Nodup := by
  have hnames : ∀ p ∈ out, p.2.methodName ∈ out.map (·.2.methodName) :=
    fun p hp => List.mem_map.mpr ⟨p, hp, rfl⟩
  exact (nodup_numberedFrom h hnames fun name _ => List.not_mem_nil).1

theorem settled_targets (out : List (String × Edge)) :
    (settled out).map (·.1) = out.map (·.1) := numberedFrom_targets _ _ out

/-- Settled names leave the ends of the edges as they are. -/
theorem mem_keys_of_settled {g g' : Graph} (h : ∀ s, g'.leaving s = settled (g.leaving s))
    (key : EdgeKey) : key ∈ g'.edges.keys ↔ key ∈ g.edges.keys := by
  have hkey := Graph.mem_leaving_targets g' key.source key.target
  rw [h, settled_targets] at hkey
  exact hkey.symm.trans (Graph.mem_leaving_targets g key.source key.target)

/-! ## Settling -/

namespace Drafting

variable (source : String)

theorem decides_explicitNames (known : SortedMap String (String × Edge))
    (out : List (String × Edge)) (d : Draft) :
    Decides (explicitNames source known out) d
      ((explicitMethods out).Nodup ∧ ∀ name ∈ explicitMethods out, name ∉ known.keys)
      fun known' d' => d' = d ∧
        ∀ name, name ∈ known'.keys ↔ name ∈ known.keys ∨ name ∈ explicitMethods out := by
  induction out generalizing known with
  | nil =>
    exact decides_of_eq_ok rfl (by simp [explicitMethods]) ⟨rfl, by simp [explicitMethods]⟩
  | cons p out ih =>
    obtain ⟨target, e⟩ := p
    rw [explicitMethods_cons]
    unfold explicitNames
    cases he : e.explicit with
    | false => exact ih known
    | true =>
      simp only [Bool.not_true, Bool.false_eq_true, ↓reduceIte]
      by_cases hc : known.contains e.methodName = true
      · have hknown := (SortedMap.contains_iff known e.methodName).mp hc
        simp only [hc, ↓reduceIte]
        exact decides_of_eq_invalid rfl fun hv => hv.2 _ (List.mem_cons_self ..) hknown
      · have hunknown : e.methodName ∉ known.keys :=
          fun hmem => hc ((SortedMap.contains_iff known e.methodName).mpr hmem)
        simp only [hc, Bool.false_eq_true, ↓reduceIte]
        refine ((ih (known.insert e.methodName (target, e))).weaken ?_).congr ?_
        · rintro - known' d' ⟨hd, hkeys⟩
          refine ⟨hd, fun name => ?_⟩
          rw [hkeys, SortedMap.mem_keys_insert, List.mem_cons]
          grind
        · simp only [SortedMap.mem_keys_insert, List.nodup_cons, List.mem_cons]
          grind

/-- The draft `d'` is `d` with other data on the edges out of one node. -/
structure Relabelled (d : Draft) (out : List (String × Edge)) (d' : Draft) : Prop where
  leaving : d'.graph.leaving source = out
  others : ∀ s, s ≠ source → d'.graph.leaving s = d.graph.leaving s
  nodes : d'.graph.nodes = d.graph.nodes

/-- Only what leaves the node in the end counts. -/
theorem Relabelled.trans {d d' d'' : Draft} {out out' : List (String × Edge)}
    (h' : Relabelled source d' out' d'') (h : Relabelled source d out d') :
    Relabelled source d out' d'' :=
  ⟨h'.leaving, fun s hs => (h'.others s hs).trans (h.others s hs), h'.nodes.trans h.nodes⟩

theorem relabelled_insert {d : Draft} {target : String} {e : Edge}
    {done rest : List (String × Edge)}
    (h : d.graph.leaving source = done ++ (target, e) :: rest) (e' : Edge) (renames : List Rename) :
    Relabelled source d (done ++ (target, e') :: rest)
      { graph := { d.graph with edges := d.graph.edges.insert ⟨source, target⟩ e' }, renames } := by
  have hmem : (⟨source, target⟩ : EdgeKey) ∈ d.graph.edges.keys := by
    rw [SortedMap.mem_keys_iff]
    refine ⟨e, ?_⟩
    rw [← Graph.mem_leaving, h]
    simp
  have hinsert := Graph.leaving_insert e' hmem
  have htargets := Graph.nodup_leaving_targets d.graph source
  rw [h, List.map_append, List.map_cons, List.nodup_append] at htargets
  obtain ⟨-, hrest, hdone⟩ := htargets
  refine ⟨?_, fun s hs => ?_, rfl⟩
  · rw [hinsert, if_pos rfl, h, List.map_append, List.map_cons, if_pos rfl]
    congr 1
    · rw [List.map_congr_left (g := id), List.map_id]
      intro p hp
      exact if_neg (hdone p.1 (List.mem_map.mpr ⟨p, hp, rfl⟩) target (List.mem_cons_self ..))
    · congr 1
      rw [List.map_congr_left (g := id), List.map_id]
      intro p hp
      refine if_neg fun heq => (List.nodup_cons.mp hrest).1 ?_
      exact List.mem_map.mpr ⟨p, hp, heq⟩
  · rw [hinsert, if_neg hs]

/-- The second pass decides that no derived name is an explicit one. Each edge is at its final name
once the pass is beyond it. -/
theorem decides_numberDerived (explicit : SortedMap String (String × Edge)) (names used : List String)
    (done rest : List (String × Edge)) (d : Draft)
    (h : d.graph.leaving source = done ++ rest) :
    Decides (numberDerived source explicit names used rest) d
      (∀ p ∈ rest, p.2.explicit = false → p.2.methodName ∉ explicit.keys)
      fun _ d' => Relabelled source d (done ++ numberedFrom names used rest) d' := by
  induction rest generalizing used done d with
  | nil => exact decides_of_eq_ok rfl (fun p hp => by cases hp) ⟨h, fun _ _ => rfl, rfl⟩
  | cons p rest ih =>
    obtain ⟨target, e⟩ := p
    have hshift : ∀ e', done ++ (target, e') :: rest = done ++ [(target, e')] ++ rest := by simp
    unfold numberDerived numberedFrom
    by_cases he : e.explicit = true
    · rw [if_pos he, if_pos he]
      have hrun := ih used (done ++ [(target, e)]) d (by rw [h, hshift])
      refine (hrun.congr ?_).weaken fun _ _ d' hd => ?_
      · rw [List.forall_mem_cons]
        simp [he]
      · rw [List.append_assoc] at hd
        exact hd
    · rw [if_neg he, if_neg he]
      have hderived : e.explicit = false := by simpa using he
      cases hx : explicit.get? e.methodName with
      | some rival =>
        refine decides_of_eq_invalid rfl fun hv => ?_
        exact hv (target, e) (List.mem_cons_self ..) hderived
          ((SortedMap.mem_keys_iff _ _).mpr ⟨rival, hx⟩)
      | none =>
        have hvalid : (∀ p ∈ rest, p.2.explicit = false → p.2.methodName ∉ explicit.keys) ↔
            ∀ p ∈ (target, e) :: rest, p.2.explicit = false → p.2.methodName ∉ explicit.keys := by
          rw [List.forall_mem_cons]
          simp [(SortedMap.get?_eq_none_iff _ _).mp hx]
        by_cases hused : used.contains e.methodName = true
        · simp only [hused, ↓reduceIte]
          generalize hname : numbered e.methodName (names ++ used) = name
          let e' : Edge := { e with methodName := name }
          let d' : Draft :=
            { graph := { d.graph with edges := d.graph.edges.insert ⟨source, target⟩ e' },
              renames := d.renames ++ [⟨source, target, name⟩] }
          have hstep : Relabelled source d (done ++ (target, e') :: rest) d' :=
            relabelled_insert source h e' _
          have hrun := ih (name :: used) (done ++ [(target, e')]) d' (by rw [hstep.leaving, hshift])
          refine Decides.of_run_eq ((hrun.congr hvalid).weaken fun _ _ d'' hd => ?_) rfl
          rw [List.append_assoc] at hd
          exact hd.trans source hstep
        · simp only [hused, Bool.false_eq_true, ↓reduceIte]
          have hrun := ih (e.methodName :: used) (done ++ [(target, e)]) d (by rw [h, hshift])
          refine (hrun.congr hvalid).weaken fun _ _ d' hd => ?_
          rw [List.append_assoc] at hd
          exact hd

/-- Settling the names out of one node decides that they are free of clashes. -/
theorem decides_settleNamesOf (d : Draft) :
    Decides (settleNamesOf source) d (ClashFree (d.graph.leaving source))
      fun _ d' => Relabelled source d (settled (d.graph.leaving source)) d' := by
  have hderived : ∀ (known : SortedMap String (String × Edge)) d', (d' = d ∧ ∀ name,
      name ∈ known.keys ↔ name ∈ (SortedMap.empty : SortedMap String (String × Edge)).keys ∨
        name ∈ explicitMethods (d.graph.leaving source)) →
      Decides (numberDerived source known ((d.graph.leaving source).map (·.2.methodName)) []
        (d.graph.leaving source)) d'
        (∀ p ∈ d.graph.leaving source, p.2.explicit = false →
          p.2.methodName ∉ explicitMethods (d.graph.leaving source))
        fun _ d'' => Relabelled source d (settled (d.graph.leaving source)) d'' := by
    rintro known d' ⟨rfl, hkeys⟩
    refine (decides_numberDerived source known _ [] [] (d'.graph.leaving source) d' rfl).congr ?_
    simp [hkeys]
  have hrun := (decides_explicitNames source SortedMap.empty (d.graph.leaving source) d).bind
    fun _ => hderived
  refine Decides.of_run_eq (hrun.congr ?_) rfl
  rw [clashFree_iff]
  simp

/-- The draft `d'` is `d` after the names out of some nodes are settled. -/
structure NamesSettled (nodes : List String) (d d' : Draft) : Prop where
  settled : ∀ s ∈ nodes, d'.graph.leaving s = settled (d.graph.leaving s)
  others : ∀ s, s ∉ nodes → d'.graph.leaving s = d.graph.leaving s
  nodes : d'.graph.nodes = d.graph.nodes

/-- The passes over several nodes decide that nothing clashes at any of them. -/
theorem decides_forM_settleNamesOf (nodes : List String) (d : Draft) (hnodup : nodes.Nodup) :
    Decides (forM nodes settleNamesOf) d (∀ s ∈ nodes, ClashFree (d.graph.leaving s))
      fun _ d' => NamesSettled nodes d d' := by
  induction nodes generalizing d with
  | nil => exact decides_of_eq_ok rfl (by simp) ⟨by simp, fun _ _ => rfl, rfl⟩
  | cons source nodes ih =>
    obtain ⟨hnot, hnodup⟩ := List.nodup_cons.mp hnodup
    have hother : ∀ s ∈ nodes, s ≠ source := by
      rintro s hs rfl
      exact hnot hs
    have hrest : ∀ d₁, Relabelled source d (Typestate.settled (d.graph.leaving source)) d₁ →
        Decides (forM nodes settleNamesOf) d₁ (∀ s ∈ nodes, ClashFree (d.graph.leaving s))
          fun _ d' => NamesSettled (source :: nodes) d d' := by
      intro d₁ h₁
      have hsame : ∀ s ∈ nodes, d₁.graph.leaving s = d.graph.leaving s :=
        fun s hs => h₁.others s (hother s hs)
      refine ((ih d₁ hnodup).weaken fun _ _ d' h => ?_).congr ?_
      · refine ⟨fun s hs => ?_, fun s hs => ?_, h.nodes.trans h₁.nodes⟩
        · rcases List.mem_cons.mp hs with rfl | hs
          · rw [h.others s hnot, h₁.leaving]
          · rw [h.settled s hs, hsame s hs]
        · rw [List.mem_cons, not_or] at hs
          rw [h.others s hs.2, h₁.others s hs.1]
      · exact forall₂_congr fun s hs => by rw [hsame s hs]
    rw [List.forM_cons]
    refine ((decides_settleNamesOf source d).bind fun _ _ => hrest).congr ?_
    rw [List.forall_mem_cons]

/-- **Settling.** The names are settled if and only if those out of no node clash, and then those out
of every node are. -/
theorem decides_settleNames (d : Draft) :
    Decides settleNames d (∀ s, ClashFree (d.graph.leaving s))
      fun _ d' => (∀ s, d'.graph.leaving s = settled (d.graph.leaving s)) ∧
        d'.graph.nodes = d.graph.nodes := by
  have hempty : ∀ s, s ∉ d.graph.sources → d.graph.leaving s = [] := Graph.leaving_eq_nil d.graph
  have hrun := decides_forM_settleNamesOf d.graph.sources d (Graph.nodup_sources d.graph)
  refine Decides.of_run_eq ((hrun.weaken ?_).congr ?_) rfl
  · rintro - - d' h
    refine ⟨fun s => ?_, h.nodes⟩
    by_cases hs : s ∈ d.graph.sources
    · exact h.settled s hs
    · rw [h.others s hs, hempty s hs]
      rfl
  · refine ⟨fun h s => ?_, fun h s _ => h s⟩
    by_cases hs : s ∈ d.graph.sources
    · exact h s hs
    · rw [hempty s hs]
      exact List.Pairwise.nil

end Drafting

end Typestate
