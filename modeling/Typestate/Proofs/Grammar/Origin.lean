import Typestate.Grammar.Document
import Typestate.Proofs.Grammar.Reading
import Typestate.Proofs.Text.Fields
import Typestate.Proofs.Token.Piece

/-!
What readers make of tokens, with one lemma for each reader. Every name and every place in a machine is that
of a token, every fragment of documentation is one line, and every complaint is about a token
(`Parser.ensures_document`, `Source.parse_madeBy`). The name of the machine is an identifier of the text, unless
the text gives none, and so is the name that the text sets for the entry enum (`Source.parse_enumNames`).
-/

namespace Typestate

variable (good : Token → Prop)

/-- The place starts where a good token does. -/
def PlacedBy (place : Option Span) : Prop :=
  ∃ t span, good t ∧ place = some span ∧ span.line = t.line ∧ span.column = t.column

/-- The node is named and placed by a good token. -/
def NodeRef.MadeBy (r : NodeRef) : Prop :=
  ∃ t, good t ∧ t.kind = .identifier ∧ Identifier.canonical t.value = .ok r.name ∧ r.span = some t.span

/-- The form of an arrow has its name, if it has one, from a good token. -/
def ArrowForm.MadeBy (form : ArrowForm) : Prop :=
  ∀ name docs, form = .named name docs → ∃ t, good t ∧ t.kind.isName = true ∧ t.value = name

/-- The arrow is placed by a good token, and named by one if it has a name. -/
structure Arrow.MadeBy (a : Arrow) : Prop where
  form : a.form.MadeBy good
  span : PlacedBy good a.span

/-- All nodes and arrows of the statement are made by good tokens. -/
def Statement.MadeBy : Statement → Prop
  | .node r => r.MadeBy good
  | .chain c => (∀ r ∈ c.nodeRefs, r.MadeBy good) ∧ ∀ step ∈ c.rest, step.1.MadeBy good

/-- All statements of the document are made by good tokens, and it is placed by one. -/
structure Document.MadeBy (d : Document) : Prop where
  statements : ∀ s ∈ d.statements, s.MadeBy good
  span : PlacedBy good d.span

section
variable (word : String → Prop)

/-- A setting for the name of the entry enum gives one of the words. -/
def Setting.NamedBy : Setting → Prop
  | .entryName (some name) => word name
  | _ => True

/-- The machine has the default name or one of the words, and the name that is set for its entry enum, if
there is one, is one of the words. -/
structure Document.EnumsNamedBy (d : Document) : Prop where
  name : d.name = defaultMachineName ∨ word d.name
  entryName : ∀ name, d.config.entryName = some name → word name

end

/-- The name is a good identifier. -/
def IdentifiedBy (name : String) : Prop := ∃ t, good t ∧ t.kind = .identifier ∧ t.value = name

variable {good}

theorem Config.entryName_update {word : String → Prop} {c : Config} {settings : List Setting}
    (hsettings : ∀ s ∈ settings, s.NamedBy word) (hc : ∀ name, c.entryName = some name → word name) :
    ∀ name, (c.update settings).entryName = some name → word name := by
  induction settings generalizing c with
  | nil => exact hc
  | cons s settings ih =>
    obtain ⟨hs, hsettings⟩ := List.forall_mem_cons.mp hsettings
    refine ih hsettings (c := c.set s) fun name hname => ?_
    cases s with
    | entryName value =>
      obtain rfl : value = some name := hname
      exact hs
    | _ => exact hc name hname

theorem placedBy_span {t : Token} (ht : good t) : PlacedBy good (some t.span) := ⟨t, _, ht, rfl, rfl, rfl⟩

theorem placedBy_spanTo {first : Token} (ht : good first) (last : Token) :
    PlacedBy good (some (first.spanTo last)) := by
  refine ⟨first, _, ht, rfl, ?_⟩
  unfold Token.spanTo
  split <;> exact ⟨rfl, rfl⟩

/-- The fragments are one line each. -/
def OneLine (fragments : List String) : Prop := ∀ f ∈ fragments, '\n' ∉ f.toList

theorem oneLine_append {fragments : List String} (h : OneLine fragments) (text : String) :
    OneLine (fragments ++ docFragments text) := by
  refine List.forall_mem_append.mpr ⟨h, fun f hf => ?_⟩
  obtain ⟨line, hline, rfl⟩ := List.mem_map.mp hf
  rw [String.toList_ofList]
  exact Text.not_mem_of_mem_fields _ hline

namespace Parser

/-! ## In front of statements -/

/-- The preamble has fragments of one line, and settings with good names. -/
structure Preamble.MadeBy (good : Token → Prop) (p : Preamble) : Prop where
  docs : OneLine p.docs
  settings : ∀ s ∈ p.settings, s.NamedBy (IdentifiedBy good)

theorem keeps_docAttribute : Keeps good docAttribute := by
  unfold docAttribute
  exact (keeps_expect _).bind fun _ => (keeps_expect _).bind fun _ => (keeps_expect _).bind fun _ =>
    (keeps_expect _).bind fun _ => (keeps_expect _).bind fun _ => (keeps_expect _).bind fun _ =>
      keeps_pure _

theorem ensures_docs : Ensures good docs OneLine := by
  unfold docs
  refine ensures_rounds (fun fragments h => ensures_current.bind fun t ht => ?_) (List.forall_mem_nil _)
  split
  · exact keeps_advance.bind fun t => ensures_pure (oneLine_append h t.value)
  · refine ensures_get.bind fun s _ => ?_
    split
    · exact keeps_docAttribute.bind fun text => ensures_pure (oneLine_append h text)
    · exact ensures_fail ht _
  · exact ensures_pure h

theorem keeps_modulePath : Keeps good modulePath := by
  unfold modulePath
  refine (keeps_isAt _).bind fun _ => ?_
  refine ensures_ite (keeps_advance.bind fun _ => (keeps_pure _).bind fun root => ?_)
    ((keeps_pure _).bind fun root => ?_)
  all_goals
    refine (keeps_expect _).bind fun first => ?_
    refine keeps_rounds (fun path => (keeps_isAt _).bind fun _ => ?_) _
    exact ensures_ite (keeps_advance.bind fun _ => (keeps_expect _).bind fun _ => keeps_pure _)
      (keeps_pure _)

theorem keeps_visibility : Keeps good visibility := by
  unfold visibility
  refine (keeps_isAt _).bind fun _ => ensures_ite (keeps_pure _) ?_
  refine keeps_advance.bind fun _ => (keeps_isAt _).bind fun _ => ensures_ite (keeps_pure _) ?_
  refine (ensures_peek 1).bind fun _ _ => ensures_ite (keeps_pure _) ?_
  refine keeps_advance.bind fun _ => keeps_advance.bind fun scope => ?_
  refine ensures_ite (keeps_modulePath.bind fun _ => (keeps_pure _).bind fun _ => ?_)
    ((keeps_pure _).bind fun _ => ?_)
  all_goals exact (keeps_expect _).bind fun _ => keeps_pure _

theorem keeps_truthValue : Keeps good truthValue := by
  unfold truthValue
  refine ensures_current.bind fun _ ht => ?_
  split
  · exact keeps_advance.bind fun _ => keeps_pure _
  · exact keeps_advance.bind fun _ => keeps_pure _
  · exact ensures_fail ht _

theorem ensures_settingValue {key : String} {value : Parser (List Setting)} (h : settingValue key = some value) :
    Ensures good value fun set => ∀ s ∈ set, s.NamedBy (IdentifiedBy good) := by
  unfold settingValue at h
  split at h <;> cases h
  · refine keeps_visibility.bind fun vis => (ensures_expect _).bind fun t ht => ensures_pure ?_
    exact List.forall_mem_cons.mpr ⟨trivial, List.forall_mem_singleton.mpr ⟨t, ht.1, ht.2, rfl⟩⟩
  · exact keeps_truthValue.bind fun _ => ensures_pure (List.forall_mem_singleton.mpr trivial)
  · exact keeps_modulePath.bind fun _ => ensures_pure (List.forall_mem_singleton.mpr trivial)
  · exact keeps_truthValue.bind fun _ => ensures_pure (List.forall_mem_singleton.mpr trivial)
  · exact keeps_truthValue.bind fun _ => ensures_pure (List.forall_mem_singleton.mpr trivial)

theorem ensures_setting {p : Preamble} (hp : p.MadeBy good) : Ensures good (setting p) (Preamble.MadeBy good) := by
  unfold setting
  refine (ensures_expect _).bind fun key ⟨hkey, _⟩ => ?_
  split
  · exact ensures_fail hkey _
  · next value hvalue =>
    have hset : Ensures good value fun set => ∀ s ∈ set, s.NamedBy (IdentifiedBy good) :=
      ensures_settingValue hvalue
    refine ensures_ite (ensures_fail_bind hkey _) ((keeps_isAt _).bind fun _ => ensures_ite ?_ ?_)
    · exact keeps_advance.bind fun _ => hset.bind fun set hset =>
        ensures_pure ⟨hp.docs, List.forall_mem_append.mpr ⟨hp.settings, hset⟩⟩
    · exact (keeps_expect _).bind fun _ => hset.bind fun set hset => (keeps_expect _).bind fun _ =>
        (ensures_pure hset : Ensures good (pure set) fun set => ∀ s ∈ set, s.NamedBy (IdentifiedBy good)).bind
          fun _ hset => ensures_pure ⟨hp.docs, List.forall_mem_append.mpr ⟨hp.settings, hset⟩⟩

theorem ensures_settings {p : Preamble} (hp : p.MadeBy good) :
    Ensures good (settings p) (Preamble.MadeBy good) := by
  unfold settings
  refine (keeps_expect _).bind fun _ => (keeps_expect _).bind fun _ => (keeps_expect _).bind fun _ =>
    (keeps_expect _).bind fun _ => ?_
  refine Ensures.bind (ensures_rounds (fun p hp => (keeps_isAt _).bind fun _ => ?_) hp :
    Ensures good _ (Preamble.MadeBy good)) fun p hp =>
      (keeps_expect _).bind fun _ => (keeps_expect _).bind fun _ => ensures_pure hp
  refine ensures_ite (ensures_pure hp) ((ensures_setting hp).bind fun p hp => (keeps_isAt _).bind fun _ => ?_)
  exact ensures_ite (keeps_advance.bind fun _ => ensures_pure hp) (ensures_pure hp)

theorem ensures_preamble : Ensures good preamble (Preamble.MadeBy good) := by
  unfold preamble
  refine ensures_rounds (fun p hp => ensures_current.bind fun t _ => ?_)
    ⟨List.forall_mem_nil _, List.forall_mem_nil _⟩
  split
  · exact keeps_advance.bind fun t => ensures_pure ⟨oneLine_append hp.docs t.value, hp.settings⟩
  · refine ensures_get.bind fun s _ => ?_
    split
    · exact keeps_docAttribute.bind fun text => ensures_pure ⟨oneLine_append hp.docs text, hp.settings⟩
    · split
      · exact (ensures_settings hp).bind fun _ hp => ensures_pure hp
      · exact keeps_verbatimAttribute.bind fun _ => ensures_pure ⟨hp.docs, hp.settings⟩
  · exact ensures_pure hp

theorem keeps_generics : Keeps good generics := by
  unfold generics
  refine (keeps_isAt _).bind fun _ => ensures_ite (keeps_pure _) ?_
  refine keeps_advance.bind fun _ => (keeps_isAt _).bind fun _ => ?_
  split
  · exact keeps_advance.bind fun _ => keeps_pure _
  · exact (keeps_textUpTo _ _).bind fun _ => (keeps_expect _).bind fun _ => keeps_pure _

theorem keeps_whereClause : Keeps good whereClause := by
  unfold whereClause
  refine (keeps_isAt _).bind fun _ => ensures_ite (keeps_pure _) ?_
  refine ensures_advance.bind fun word hword => (keeps_isAt _).bind fun _ =>
    ensures_ite (keeps_pure _) ?_
  refine (keeps_textUpTo _ _).bind fun _ => ?_
  exact ensures_ite (ensures_fail_bind hword _) (keeps_pure _)

theorem ensures_header : Ensures good header fun h => good h.name ∧ h.name.kind = .identifier := by
  unfold header
  refine keeps_visibility.bind fun _ => ensures_get.bind fun s _ => ?_
  refine ensures_ite (keeps_advance.bind fun _ => ?_) ?_
  all_goals
    exact (ensures_expect _).bind fun name hname => keeps_generics.bind fun _ =>
      keeps_whereClause.bind fun _ => ensures_pure hname

/-! ## Statements -/

theorem ensures_nodeRef (docs : List String) : Ensures good (nodeRef docs) (NodeRef.MadeBy good) := by
  unfold nodeRef
  refine ensures_current.bind fun t ht => ?_
  by_cases hkind : t.kind = .identifier
  · simp only [hkind, bne_self_eq_false, Bool.false_eq_true, ↓reduceIte]
    refine keeps_advance.bind fun _ => ?_
    split
    · exact ensures_fail ht _
    · next name hname =>
      refine (keeps_isAt _).bind fun _ => ensures_ite (keeps_advance.bind fun _ => ?_) ?_
      · exact (keeps_map (keeps_textUpTo _ _)).bind fun _ => ensures_pure ⟨t, ht, hkind, hname, rfl⟩
      · exact (keeps_pure _).bind fun _ => ensures_pure ⟨t, ht, hkind, hname, rfl⟩
  · have hother : (t.kind != .identifier) = true := by simpa using hkind
    simp only [hother, ↓reduceIte]
    exact ensures_fail_bind ht _

theorem ensures_group (docs : List String) :
    Ensures good (group docs) fun refs => ∀ r ∈ refs, r.MadeBy good := by
  unfold group
  refine (ensures_nodeRef docs).bind fun first hfirst => ?_
  refine ensures_rounds (fun members hmembers => (keeps_isAt _).bind fun _ => ?_) (by simpa)
  refine ensures_ite (keeps_advance.bind fun _ => (ensures_nodeRef []).bind fun r hr => ?_) ?_
  · refine ensures_pure fun r' hr' => ?_
    rcases List.mem_append.mp hr' with hr' | hr'
    · exact hmembers r' hr'
    · rwa [List.mem_singleton.mp hr']
  · exact ensures_pure hmembers

theorem ensures_arrowLabel : Ensures good arrowLabel (ArrowForm.MadeBy good) := by
  unfold arrowLabel
  refine (keeps_isAt _).bind fun _ => ensures_ite (keeps_advance.bind fun _ => ?_) ?_
  · exact ensures_pure nofun
  · refine ensures_expectName.bind fun t ⟨ht, hname⟩ => ?_
    refine (keeps_isAt _).bind fun _ => ensures_ite (keeps_advance.bind fun _ => ?_) ?_
    · refine ensures_pure ?_
      rintro _ _ ⟨⟩
      exact ⟨t, ht, hname, rfl⟩
    · refine ensures_pure ?_
      rintro _ _ ⟨⟩
      exact ⟨t, ht, hname, rfl⟩

theorem keeps_arrowHead : Keeps good arrowHead := Ensures.keeps ensures_accept

theorem ensures_arrow : Ensures good arrow (Arrow.MadeBy good) := by
  unfold arrow
  refine ensures_current.bind fun first ht => ?_
  split
  · exact keeps_advance.bind fun _ => ensures_pure ⟨nofun, placedBy_span ht⟩
  · refine keeps_advance.bind fun _ => (keeps_isAt _).bind fun _ => ?_
    refine ensures_ite (keeps_advance.bind fun last => ensures_pure ⟨nofun, placedBy_spanTo ht last⟩)
      ((keeps_isAt _).bind fun _ => ?_)
    refine ensures_ite (keeps_advance.bind fun _ => ?_) ?_
    all_goals
      refine ensures_arrowLabel.bind fun form hform => (keeps_isAt _).bind fun _ => ?_
      refine ensures_ite (keeps_advance.bind fun _ => ?_) ?_
      all_goals
        exact keeps_arrowHead.bind fun last => ensures_pure ⟨hform, placedBy_spanTo ht last⟩
  · exact ensures_fail ht _

theorem ensures_chainRest : Ensures good chainRest fun rest =>
    ∀ step ∈ rest, step.1.MadeBy good ∧ ∀ r ∈ step.2, r.MadeBy good := by
  unfold chainRest
  refine ensures_rounds (fun rest hrest => (keeps_isAt _).bind fun _ => ?_) (by simp)
  refine ensures_ite (ensures_pure hrest) (ensures_arrow.bind fun arrow harrow => ?_)
  refine ensures_current.bind fun start hstart => (ensures_group []).bind fun targets htargets => ?_
  refine ensures_ite (ensures_fail_bind hstart _) (ensures_pure fun step hstep => ?_)
  rcases List.mem_append.mp hstep with hstep | hstep
  · exact hrest step hstep
  · rw [List.mem_singleton.mp hstep]
    exact ⟨harrow, htargets⟩

theorem ensures_statement : Ensures good statement (Statement.MadeBy good) := by
  unfold statement
  refine ensures_docs.bind fun docs _ => (ensures_group docs).bind fun first hfirst => ?_
  have hchain : Ensures good (do
      let rest ← chainRest
      if rest.isEmpty then fail (← current) .loneGroup
      let _ ← expect .semicolon
      return .chain { docs, first := first.map ({ · with docs := [] }), rest })
      (Statement.MadeBy good) := by
    refine ensures_chainRest.bind fun rest hrest => ?_
    refine ensures_ite (ensures_current.bind fun _ ht => ensures_fail_bind ht _) ?_
    refine (keeps_expect _).bind fun _ => ensures_pure ⟨fun r hr => ?_, fun step hstep => ?_⟩
    · obtain ⟨group, hgroup, hr⟩ := List.mem_flatten.mp hr
      rcases List.mem_cons.mp hgroup with rfl | hgroup
      · obtain ⟨r', hr', rfl⟩ := List.mem_map.mp hr
        exact hfirst r' hr'
      · obtain ⟨step, hstep, rfl⟩ := List.mem_map.mp hgroup
        exact (hrest step hstep).2 r hr
    · exact (hrest step hstep).1
  refine (keeps_isAt _).bind fun _ => ensures_ite ?_ hchain
  split
  · next ref _ => exact keeps_advance.bind fun _ => ensures_pure (hfirst ref (by simp))
  · exact hchain

theorem ensures_statements (terminator : TokenKind) :
    Ensures good (statements terminator) fun ss => ∀ s ∈ ss, s.MadeBy good := by
  unfold statements
  refine ensures_rounds (fun ss hss => (keeps_isAt _).bind fun _ => ?_) (by simp)
  refine ensures_ite (ensures_pure hss) (ensures_current.bind fun t ht => ?_)
  refine ensures_ite (ensures_fail_bind ht _) (ensures_statement.bind fun s hs => ?_)
  refine ensures_pure fun s' hs' => ?_
  rcases List.mem_append.mp hs' with hs' | hs'
  · exact hss s' hs'
  · rwa [List.mem_singleton.mp hs']

/-- **Origin.** A document that is read from good tokens is made by good tokens, the names of its enums too. -/
theorem ensures_document :
    Ensures good document fun d => d.MadeBy good ∧ d.EnumsNamedBy (IdentifiedBy good) := by
  unfold document
  refine ensures_get.bind fun s _ => ensures_ite ?_ ?_
  · unfold headedDocument
    refine ensures_preamble.bind fun p hp => ensures_header.bind fun h ⟨hname, hkind⟩ =>
      (keeps_expect _).bind fun _ => ?_
    refine (ensures_statements _).bind fun ss hss => (keeps_expect _).bind fun _ => (keeps_expect _).bind fun _ =>
      ensures_pure ⟨⟨hss, placedBy_span hname⟩, Or.inr ⟨h.name, hname, hkind, rfl⟩, ?_⟩
    exact Config.entryName_update hp.settings nofun
  · unfold bareDocument
    refine ensures_current.bind fun start hstart => ?_
    exact (ensures_statements _).bind fun ss hss =>
      ensures_pure ⟨⟨hss, placedBy_span hstart⟩, Or.inl rfl, nofun⟩

end Parser

/-! ## Sources -/

namespace Source

variable {src : Source} {tokens : List Token} {d : Document}

theorem all_ofTokens (h : src.tokenize = .ok tokens) : (TokenStream.ofTokens tokens).All (· ∈ tokens) := by
  obtain ⟨ps, _, -, -, -, mark, -, rfl⟩ := reads_of_tokenize h
  refine ⟨fun t ht => (List.dropLast_sublist _).subset ht, ?_⟩
  unfold TokenStream.ofTokens
  rw [List.getLast?_concat]
  exact List.mem_concat_self

theorem parse_origin (htokens : src.tokenize = .ok tokens) (h : src.parse = .ok d) :
    d.MadeBy (· ∈ tokens) ∧ d.EnumsNamedBy (IdentifiedBy (· ∈ tokens)) := by
  have hrun : Parser.document.run src tokens = .ok d := by
    rw [← h, parse, htokens]
    rfl
  unfold Parser.run at hrun
  split at hrun
  · next d' s hdocument =>
    cases hrun
    exact (Parser.ensures_document.of_ok (all_ofTokens htokens) hdocument).2
  · cases hrun

theorem parse_madeBy (htokens : src.tokenize = .ok tokens) (h : src.parse = .ok d) : d.MadeBy (· ∈ tokens) :=
  (parse_origin htokens h).1

/-- **Names of enums.** The names of the two enums are identifiers among the tokens, unless they are default names. -/
theorem parse_enumNames (htokens : src.tokenize = .ok tokens) (h : src.parse = .ok d) :
    d.EnumsNamedBy fun name => ∃ t ∈ tokens, t.kind = .identifier ∧ t.value = name :=
  (parse_origin htokens h).2

end Source

end Typestate
