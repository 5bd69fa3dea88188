import Typestate.Proofs.Grammar.Capture
import Typestate.Proofs.Grammar.Mirror
import Typestate.Proofs.Grammar.Options
import Typestate.Proofs.Grammar.Origin

/-!
Whole machines read alike. What stands in front of a header is read as it is in another text, behind other
options or without them, unless a key is then written twice (`Parser.repeats_preamble`). So a text is read as a
machine if a text with corresponding tokens is, and as the same machine up to places and documentation
(`Mirror.parse`).
-/

namespace Typestate

/-! ## Keys -/

namespace Parser

/-- Every setting is one of a key that has been seen. -/
def Preamble.Keyed (p : Preamble) : Prop := ∀ x ∈ p.settings, x.key ∈ p.seen

/-- The second preamble has seen what the first has, and more. -/
structure Preamble.Grows (p p' : Preamble) : Prop where
  seen : p.seen ⊆ p'.seen
  keyed : p.Keyed → p'.Keyed

namespace Preamble.Grows

theorem refl (p : Preamble) : p.Grows p := ⟨List.Subset.refl _, id⟩

theorem trans {p p' p'' : Preamble} (h : p.Grows p') (h' : p'.Grows p'') : p.Grows p'' :=
  ⟨List.Subset.trans h.seen h'.seen, h'.keyed ∘ h.keyed⟩

end Preamble.Grows

variable {good : Token → Prop}

theorem ensures_settingValue_keyed {key : String} {value : Parser (List Setting)}
    (h : settingValue key = some value) : Ensures good value fun set => ∀ x ∈ set, x.key = key := by
  unfold settingValue at h
  split at h <;> cases h
  · refine keeps_visibility.bind fun vis => (keeps_expect _).bind fun name => ensures_pure ?_
    exact List.forall_mem_cons.mpr ⟨rfl, List.forall_mem_singleton.mpr rfl⟩
  · exact keeps_truthValue.bind fun _ => ensures_pure (List.forall_mem_singleton.mpr rfl)
  · exact keeps_modulePath.bind fun _ => ensures_pure (List.forall_mem_singleton.mpr rfl)
  · exact keeps_truthValue.bind fun _ => ensures_pure (List.forall_mem_singleton.mpr rfl)
  · exact keeps_truthValue.bind fun _ => ensures_pure (List.forall_mem_singleton.mpr rfl)

/-- The preamble after a key and the settings of its value. -/
def Preamble.withKey (p : Preamble) (key : String) (set : List Setting) : Preamble :=
  { p with settings := p.settings ++ set, seen := p.seen ++ [key] }

theorem ensures_keyValue (p : Preamble) {key : String} {value : Parser (List Setting)}
    (h : settingValue key = some value) : Ensures good (do
      let set ← if ← isAt .equals then do
          let _ ← advance
          value
        else do
          let _ ← expect .leftParen
          let set ← value
          let _ ← expect .rightParen
          pure set
      return p.withKey key set) fun p' => ∃ set, (∀ x ∈ set, x.key = key) ∧ p' = p.withKey key set := by
  have hset : Ensures good value fun set => ∀ x ∈ set, x.key = key := ensures_settingValue_keyed h
  refine (keeps_isAt _).bind fun _ => ensures_ite ?_ ?_
  · exact keeps_advance.bind fun _ => hset.bind fun set hset => ensures_pure ⟨set, hset, rfl⟩
  · refine (keeps_expect _).bind fun _ => hset.bind fun set hset => (keeps_expect _).bind fun _ => ?_
    exact (ensures_pure hset : Ensures good (pure set) fun set => ∀ x ∈ set, x.key = key).bind
      fun set hset => ensures_pure ⟨set, hset, rfl⟩

theorem Preamble.grows_withKey (p : Preamble) {key : String} {set : List Setting} (h : ∀ x ∈ set, x.key = key) :
    p.Grows (p.withKey key set) := by
  refine ⟨List.subset_append_left _ _, fun hp => List.forall_mem_append.mpr ⟨?_, ?_⟩⟩
  · intro x hx
    exact List.mem_append_left _ (hp x hx)
  · intro x hx
    exact List.mem_append_right _ (List.mem_singleton.mpr (h x hx))

theorem ensures_setting_grows (p : Preamble) : Ensures good (setting p) p.Grows := by
  unfold setting
  refine (ensures_expect _).bind fun key ⟨hkey, _⟩ => ?_
  split
  · exact ensures_fail hkey _
  · next value hvalue =>
    refine ensures_ite (ensures_fail_bind hkey _) ((ensures_keyValue p hvalue).weaken ?_)
    rintro _ ⟨set, hset, rfl⟩
    exact p.grows_withKey hset

theorem ensures_settingsRound (p : Preamble) :
    Ensures good (settingsRound p) fun r => p.Grows r.value := by
  unfold settingsRound
  refine (keeps_isAt _).bind fun _ => ensures_ite (ensures_pure (.refl p)) ?_
  refine (ensures_setting_grows p).bind fun p' hp => (keeps_isAt _).bind fun _ => ?_
  exact ensures_ite (keeps_advance.bind fun _ => ensures_pure hp) (ensures_pure hp)

/-- A repetition grows as its rounds do. -/
theorem ensures_rounds_grows {round : Preamble → Parser (Round Preamble)}
    (hround : ∀ p, Ensures good (round p) fun r => p.Grows r.value) (p : Preamble) :
    Ensures good (rounds round p) p.Grows := by
  refine ensures_rounds (fun p' hp => (hround p').weaken ?_) (.refl p)
  rintro (_ | _) hr <;> exact hp.trans hr

theorem ensures_settings_grows (p : Preamble) : Ensures good (settings p) p.Grows := by
  rw [settings_eq]
  refine (keeps_expect _).bind fun _ => (keeps_expect _).bind fun _ => (keeps_expect _).bind fun _ =>
    (keeps_expect _).bind fun _ => (ensures_rounds_grows ensures_settingsRound p).bind fun p' hp => ?_
  exact (keeps_expect _).bind fun _ => (keeps_expect _).bind fun _ => ensures_pure hp

/-- One round of reading what stands in front of a header. -/
def preambleRound (p : Preamble) : Parser (Round Preamble) := do
  let t ← current
  match t.kind with
  | .doc =>
    let t ← advance
    return .again { p with docs := p.docs ++ docFragments t.value }
  | .pound =>
    let s ← get
    if s.startsDocAttribute then
      return .again { p with docs := p.docs ++ docFragments (← docAttribute) }
    else if s.startsAttribute settingsAttribute then
      return .again (← settings p)
    else
      return .again { p with attrs := p.attrs ++ [← verbatimAttribute] }
  | _ => return .done p

theorem preamble_eq : preamble = rounds preambleRound {} := rfl

theorem ensures_preambleRound (p : Preamble) :
    Ensures good (preambleRound p) fun r => p.Grows r.value := by
  unfold preambleRound
  refine ensures_current.bind fun t _ => ?_
  split
  · exact keeps_advance.bind fun _ => ensures_pure ⟨List.Subset.refl _, id⟩
  · refine ensures_get.bind fun s _ => ?_
    split
    · exact keeps_docAttribute.bind fun _ => ensures_pure ⟨List.Subset.refl _, id⟩
    · split
      · exact (ensures_settings_grows p).bind fun _ hp => ensures_pure hp
      · exact keeps_verbatimAttribute.bind fun _ => ensures_pure ⟨List.Subset.refl _, id⟩
  · exact ensures_pure (.refl p)

theorem ensures_preamble_keyed : Ensures good preamble Preamble.Keyed := by
  rw [preamble_eq]
  exact (ensures_rounds_grows ensures_preambleRound {}).weaken fun p hp => hp.keyed nofun

/-! ## Options in front -/

section
variable {src src' : Source} {m : Mirror src src'} {first : Preamble}

/-- The preamble has seen none of the keys of the first one. -/
abbrev Preamble.NewTo (first p : Preamble) : Prop := first.seen.Disjoint p.seen

theorem Preamble.Grows.newTo {p p' : Preamble} (h : p.Grows p') (hnew : Preamble.NewTo first p') :
    Preamble.NewTo first p := fun _ hfirst hp => hnew hfirst (h.seen hp)

/-- The second preamble is as the other one is, but for documentation and for the options of the first one,
which come before its own. -/
structure Preamble.Mirrors (fragment : String → String → Prop) (first p p' : Preamble) : Prop where
  docs : List.Forall₂ fragment p.docs p'.docs
  attrs : p'.attrs = p.attrs
  settings : p'.settings = first.settings ++ p.settings
  seen : p'.seen = first.seen ++ p.seen

/-- What a reader ensures is true of its result. -/
theorem Ensures.of_run {α : Type} {p : Parser α} {post : α → Prop} (h : Ensures (fun _ => True) p post)
    {s s' : TokenStream} {a : α} (hrun : p src s = .ok a s') : post a :=
  (h.of_ok ⟨fun _ _ => trivial, trivial⟩ hrun).2

theorem repeats_keyValue {p p' : Preamble} (hp : Preamble.Mirrors m.fragment first p p') {key : String}
    {value : Parser (List Setting)} (h : settingValue key = some value) : Repeats m (do
      let set ← if ← isAt .equals then do
          let _ ← advance
          value
        else do
          let _ ← expect .leftParen
          let set ← value
          let _ ← expect .rightParen
          pure set
      return p.withKey key set) (do
      let set ← if ← isAt .equals then do
          let _ ← advance
          value
        else do
          let _ ← expect .leftParen
          let set ← value
          let _ ← expect .rightParen
          pure set
      return p'.withKey key set) (Preamble.Mirrors m.fragment first) := by
  have hvalue : Repeats m value value Eq := repeats_settingValue h
  have hresult : ∀ set, Preamble.Mirrors m.fragment first (p.withKey key set) (p'.withKey key set) := by
    intro set
    refine ⟨hp.docs, hp.attrs, ?_, ?_⟩
    · simp [Preamble.withKey, hp.settings]
    · simp [Preamble.withKey, hp.seen]
  refine (repeats_isAt _).bind ?_
  rintro b _ rfl
  refine repeats_ite ?_ ?_
  · refine repeats_advance.bind fun _ _ _ => hvalue.bind ?_
    rintro set _ rfl
    exact repeats_pure (hresult set)
  · refine (repeats_expect _).bind fun _ _ _ => hvalue.bind ?_
    rintro set _ rfl
    exact (repeats_expect _).bind fun _ _ _ => repeats_pure (hresult set)

/-- A key is read behind other keys. -/
theorem repeats_setting {p p' : Preamble} (hp : Preamble.Mirrors m.fragment first p p') :
    RepeatsIf m (Preamble.NewTo first) (setting p) (setting p') (Preamble.Mirrors m.fragment first) := by
  unfold setting
  refine (repeats_expect _).bind fun key key' ⟨hkey, hkind⟩ => ?_
  rw [Mirror.value_identifier hkey hkind]
  cases hvalue : settingValue key.value with
  | none => exact repeats_fail _ _
  | some value =>
    dsimp only
    by_cases hseen : p.seen.contains key.value = true
    · rw [if_pos hseen]
      exact repeats_fail_bind _ _
    · rw [if_neg hseen]
      by_cases hfirst : key.value ∈ first.seen
      · -- The key is written in both places.
        intro s s' a s₁ _ hrun hnew
        obtain ⟨set, -, rfl⟩ := (ensures_keyValue p hvalue).of_run hrun
        exact absurd (List.mem_append_right _ (List.mem_singleton_self _)) (hnew hfirst)
      · have hunseen : ¬ p'.seen.contains key.value = true := by
          simp [hp.seen, hfirst] at hseen ⊢
          exact hseen
        rw [if_neg hunseen]
        exact Repeats.restrict (repeats_keyValue hp hvalue)

theorem repeats_settingsRound {p p' : Preamble} (hp : Preamble.Mirrors m.fragment first p p') :
    RepeatsIf m (fun r => Preamble.NewTo first r.value) (settingsRound p) (settingsRound p')
      (Round.Related (Preamble.Mirrors m.fragment first)) := by
  unfold settingsRound
  refine (repeats_isAt _).bind ?_
  rintro b _ rfl
  refine repeats_ite (repeats_pure hp) ((repeats_setting hp).bind ?_ ?_)
  · intro p₁ p₁' hp₁
    refine (repeats_isAt _).bind ?_
    rintro b _ rfl
    exact repeats_ite (repeats_advance.bind fun _ _ _ => repeats_pure hp₁) (repeats_pure hp₁)
  · intro p₁ s r s₁ hrun hnew
    have hvalue : Ensures (fun _ => True) (do
        if ← isAt .comma then
          let _ ← advance
          return .again p₁
        else return .done p₁ : Parser (Round Preamble)) fun r => r.value = p₁ :=
      (keeps_isAt _).bind fun _ => ensures_ite (keeps_advance.bind fun _ => ensures_pure rfl) (ensures_pure rfl)
    rwa [hvalue.of_run hrun] at hnew

theorem repeats_settings {p p' : Preamble} (hp : Preamble.Mirrors m.fragment first p p') :
    RepeatsIf m (Preamble.NewTo first) (settings p) (settings p') (Preamble.Mirrors m.fragment first) := by
  rw [settings_eq, settings_eq]
  refine (repeats_expect _).bind fun _ _ _ => (repeats_expect _).bind fun _ _ _ =>
    (repeats_expect _).bind fun _ _ _ => (repeats_expect _).bind fun _ _ _ => ?_
  have hrounds : RepeatsIf m (Preamble.NewTo first) (rounds settingsRound p) (rounds settingsRound p')
      (Preamble.Mirrors m.fragment first) := by
    refine RepeatsIf.rounds (fun _ _ => repeats_settingsRound) ?_ hp
    intro p₁ s r s₁ hrun hnew
    exact ((ensures_settingsRound p₁).of_run hrun).newTo hnew
  refine hrounds.bind ?_ ?_
  · intro p₁ p₁' hp₁
    exact (repeats_expect _).bind fun _ _ _ => (repeats_expect _).bind fun _ _ _ => repeats_pure hp₁
  · intro p₁ s p₂ s₁ hrun hnew
    have hresult : Ensures (fun _ => True) (do
        let _ ← expect .rightParen
        let _ ← expect .rightBracket
        return p₁) fun r => r = p₁ :=
      (keeps_expect _).bind fun _ => (keeps_expect _).bind fun _ => ensures_pure rfl
    rwa [hresult.of_run hrun] at hnew

theorem repeats_preambleRound {p p' : Preamble} (hp : Preamble.Mirrors m.fragment first p p') :
    RepeatsIf m (fun r => Preamble.NewTo first r.value) (preambleRound p) (preambleRound p')
      (Round.Related (Preamble.Mirrors m.fragment first)) := by
  have hdocs : ∀ {docs docs' : List String}, List.Forall₂ m.fragment docs docs' →
      Preamble.Mirrors m.fragment first { p with docs := p.docs ++ docs } { p' with docs := p'.docs ++ docs' } :=
    fun h => ⟨List.rel_append hp.docs h, hp.attrs, hp.settings, hp.seen⟩
  unfold preambleRound
  refine repeats_current.bind fun t t' ht => ?_
  rw [m.kind ht]
  split
  · exact repeats_advance.bind fun t t' ht => repeats_pure (hdocs (m.fragments ht))
  · refine repeats_get.bind fun s s' hs => ?_
    rw [hs.startsDocAttribute, hs.startsAttribute]
    refine repeats_ite ?_ (repeats_ite ?_ ?_)
    · exact repeats_docAttribute.bind fun text text' htext => repeats_pure (hdocs htext)
    · refine (repeats_settings hp).bind (fun p₁ p₁' hp₁ => repeats_pure hp₁) ?_
      rintro p₁ s _ s₁ ⟨⟩ hnew
      exact hnew
    · refine repeats_verbatimAttribute.bind ?_
      rintro text _ rfl
      refine repeats_pure ?_
      exact ⟨hp.docs, congrArg (· ++ [text]) hp.attrs, hp.settings, hp.seen⟩
  · exact repeats_pure hp

/-- What stands in front of a header is read behind other attributes, if no key is written twice. -/
theorem repeats_preamble {p p' : Preamble} (hp : Preamble.Mirrors m.fragment first p p') :
    RepeatsIf m (Preamble.NewTo first) (rounds preambleRound p) (rounds preambleRound p')
      (Preamble.Mirrors m.fragment first) := by
  refine RepeatsIf.rounds (fun _ _ => repeats_preambleRound) ?_ hp
  intro p₁ s r s₁ hrun hnew
  exact ((ensures_preambleRound p₁).of_run hrun).newTo hnew

end

end Parser

/-! ## Machines -/

/-- The same machine but for places and documentation. -/
structure Document.Mirrors (fragment : String → String → Prop) (d d' : Document) : Prop where
  name : d'.name = d.name
  vis : d'.vis = d.vis
  docs : List.Forall₂ fragment d.docs d'.docs
  attrs : d'.attrs = d.attrs
  generics : d'.generics = d.generics
  predicates : d'.predicates = d.predicates
  config : d'.config = d.config
  statements : List.Forall₂ (Statement.Mirrors fragment) d.statements d'.statements

/-! ### With the same documentation -/

theorem NodeRef.Mirrors.withoutSpan {r r' : NodeRef} (h : r.Mirrors Eq r') : r'.withoutSpan = r.withoutSpan := by
  obtain ⟨hname, hty, hdocs⟩ := h
  rw [List.forall₂_eq_eq_eq] at hdocs
  simp only [NodeRef.withoutSpan, hname, hty, hdocs]

theorem map_eq_of_forall₂ {α β : Type} {related : α → α → Prop} {f : α → β} {as as' : List α}
    (h : List.Forall₂ related as as') (hrel : ∀ a a', related a a' → f a' = f a) : as'.map f = as.map f := by
  induction h with
  | nil => rfl
  | cons ha _ ih => rw [List.map_cons, List.map_cons, hrel _ _ ha, ih]

theorem ArrowForm.Mirrors.eq {form form' : ArrowForm} (h : form.Mirrors Eq form') : form' = form := by
  cases h with
  | plain => rfl
  | long => rfl
  | documented h =>
    rw [List.forall₂_eq_eq_eq] at h
    rw [h]
  | named method h =>
    rw [List.forall₂_eq_eq_eq] at h
    rw [h]

theorem StepMirrors.withoutSpans {step step' : Arrow × NodeGroup} (h : StepMirrors Eq step step') :
    stepWithoutSpans step' = stepWithoutSpans step := by
  simp only [stepWithoutSpans, Arrow.withoutSpan, h.form.eq,
    map_eq_of_forall₂ h.targets fun _ _ => NodeRef.Mirrors.withoutSpan]

theorem Statement.Mirrors.withoutSpans {s s' : Statement} (h : s.Mirrors Eq s') :
    s'.withoutSpans = s.withoutSpans := by
  cases h with
  | node h => exact congrArg Statement.node h.withoutSpan
  | chain h =>
    have hdocs := h.docs
    rw [List.forall₂_eq_eq_eq] at hdocs
    simp only [Statement.withoutSpans, Chain.withoutSpans, hdocs,
      map_eq_of_forall₂ h.first fun _ _ => NodeRef.Mirrors.withoutSpan,
      map_eq_of_forall₂ h.rest fun _ _ => StepMirrors.withoutSpans]

theorem Document.Mirrors.withoutSpans {d d' : Document} (h : d.Mirrors Eq d') :
    d'.withoutSpans = d.withoutSpans := by
  have hdocs := h.docs
  rw [List.forall₂_eq_eq_eq] at hdocs
  simp only [Document.withoutSpans, h.name, h.vis, hdocs, h.attrs, h.generics, h.predicates, h.config,
    map_eq_of_forall₂ h.statements fun _ _ => Statement.Mirrors.withoutSpans]

namespace Parser

variable {src src' : Source} {m : Mirror src src'}

/-- The document behind a preamble. -/
def documentBehind (p : Preamble) : Parser Document := do
  let h ← header
  let _ ← expect .leftBrace
  let statements ← statements .rightBrace
  let _ ← expect .rightBrace
  let _ ← expect .endOfInput
  return { name := h.name.value, vis := h.vis, docs := p.docs, attrs := p.attrs,
           generics := h.generics, predicates := h.predicates, config := p.config, statements,
           span := some h.name.span }

theorem headedDocument_eq : headedDocument = preamble >>= documentBehind := rfl

/-- Behind preambles that say the same but for their options, the same is read. -/
theorem repeats_documentBehind {p p' : Preamble} (hdocs : List.Forall₂ m.fragment p.docs p'.docs)
    (hattrs : p'.attrs = p.attrs) : Repeats m (documentBehind p) (documentBehind p') fun d d' =>
      d.Mirrors m.fragment { d' with config := d.config } ∧ d.config = p.config ∧ d'.config = p'.config := by
  unfold documentBehind
  refine repeats_header.bind fun h h' hh => (repeats_expect _).bind fun _ _ _ =>
    (repeats_statements .rightBrace).bind fun ss ss' hss => (repeats_expect _).bind fun _ _ _ =>
      (repeats_expect _).bind fun _ _ _ => repeats_pure ⟨?_, rfl, rfl⟩
  exact ⟨Mirror.value_identifier hh.name hh.kind, hh.vis, hdocs, hattrs, hh.generics, hh.predicates, rfl, hss⟩

theorem repeats_document : Repeats m document document (Document.Mirrors m.fragment) := by
  unfold document
  refine repeats_get.bind fun s s' hs => ?_
  rw [hs.startsHeader]
  refine repeats_ite ?_ ?_
  · rw [headedDocument_eq, preamble_eq]
    have hpreamble : Repeats m (rounds preambleRound {}) (rounds preambleRound {})
        (Preamble.Mirrors m.fragment {}) := by
      intro s s' p s₁ hs hrun _
      exact repeats_preamble ⟨.nil, rfl, rfl, rfl⟩ s s' p s₁ hs hrun (List.disjoint_nil_left _)
    refine hpreamble.bind fun p p' hp => RepeatsIf.weaken (repeats_documentBehind hp.docs hp.attrs) ?_
    rintro d d' ⟨hd, hconfig, hconfig'⟩
    refine { hd with config := ?_ }
    rw [hconfig, hconfig', Preamble.config, Preamble.config, hp.settings]
    rfl
  · unfold bareDocument
    refine repeats_current.bind fun _ _ _ => (repeats_statements .endOfInput).bind fun ss ss' hss =>
      repeats_pure ?_
    exact ⟨rfl, rfl, .nil, rfl, rfl, rfl, rfl, hss⟩

end Parser

/-- The mark of the end at least is a token. -/
theorem Source.ne_nil_of_tokenize {src : Source} {tokens : List Token} (h : src.tokenize = .ok tokens) :
    tokens ≠ [] := by
  obtain ⟨ps, _, -, -, -, mark, -, rfl⟩ := reads_of_tokenize h
  simp

theorem Source.exists_tokens_of_parse {src : Source} {d : Document} (h : src.parse = .ok d) :
    ∃ tokens, src.tokenize = .ok tokens := by
  cases htokens : src.tokenize with
  | ok tokens => exact ⟨tokens, rfl⟩
  | error e =>
    rw [parse, htokens] at h
    cases h

theorem Source.exists_run_of_parse {src : Source} {tokens : List Token} {d : Document}
    (htokens : src.tokenize = .ok tokens) (h : src.parse = .ok d) :
    ∃ s, Parser.document src (.ofTokens tokens) = .ok d s := by
  rw [parse_of_tokenize htokens, Parser.run] at h
  cases hrun : Parser.document src (.ofTokens tokens) with
  | ok d' s =>
    rw [hrun] at h
    exact ⟨s, by rw [Except.ok.inj h]⟩
  | error e s =>
    rw [hrun] at h
    cases h

namespace Mirror

variable {src src' : Source} (m : Mirror src src')

theorem streams_ofTokens {tokens tokens' : List Token} (h : List.Forall₂ m.token tokens tokens')
    (hne : tokens ≠ []) : m.Streams (.ofTokens tokens) (.ofTokens tokens') := by
  induction h with
  | nil => exact absurd rfl hne
  | @cons t t' ts ts' ht hts ih =>
    cases hts with
    | nil => exact ⟨.nil, ht⟩
    | cons hu hts =>
      obtain ⟨hahead, hlast⟩ := ih (List.cons_ne_nil _ _)
      exact ⟨.cons ht hahead, hlast⟩

/-- **Machines.** A text is read as a machine if one with corresponding tokens is. -/
theorem parse {tokens tokens' : List Token} (htokens : src.tokenize = .ok tokens)
    (htokens' : src'.tokenize = .ok tokens') (h : List.Forall₂ m.token tokens tokens') {d : Document}
    (hread : src.parse = .ok d) : ∃ d', src'.parse = .ok d' ∧ d.Mirrors m.fragment d' := by
  obtain ⟨s, hrun⟩ := Source.exists_run_of_parse htokens hread
  have hs := m.streams_ofTokens h (Source.ne_nil_of_tokenize htokens)
  obtain ⟨d', s', hrun', -, hd⟩ := Parser.repeats_document _ _ _ _ hs hrun trivial
  refine ⟨d', ?_, hd⟩
  rw [Source.parse_of_tokenize htokens', Parser.run, hrun']

end Mirror

end Typestate
