import Mathlib.Data.List.Forall2
import Mathlib.Data.Option.Basic
import Typestate.Grammar.Document
import Typestate.Proofs.Grammar.Reading

/-!
Reading two texts alike. A `Mirror` says which tokens of two texts correspond and what their documentation has
to do with each other. Whatever is read of some tokens of the first text is read of the corresponding tokens of
the second, up to places and documentation. `RepeatsIf` says so of two readers, with a rule for each way of
making readers from others and a lemma for each reader of the grammar, up to the statements of a machine.
-/

namespace Typestate

/-- How the tokens of two texts correspond, and the fragments of documentation that they give. Tokens that
correspond are of one kind and have the same value, strings and doc comments aside, and runs of them have the
same text. -/
structure Mirror (src src' : Source) where
  token : Token → Token → Prop
  fragment : String → String → Prop
  kind : ∀ {t t' : Token}, token t t' → t'.kind = t.kind
  value : ∀ {t t' : Token}, token t t' → t.kind ≠ .doc → t.kind ≠ .string → t'.value = t.value
  fragments : ∀ {t t' : Token}, token t t' → List.Forall₂ fragment (docFragments t.value) (docFragments t'.value)
  indented : ∀ {a b : String}, fragment a b → fragment (" " ++ a) (" " ++ b)
  text : ∀ {ts ts' : List Token}, List.Forall₂ token ts ts' → src'.textOf ts' = src.textOf ts

/-! ## What is read -/

section
variable (fragment : String → String → Prop)

/-- The same mention of a node but for its place and its documentation. -/
structure NodeRef.Mirrors (r r' : NodeRef) : Prop where
  name : r'.name = r.name
  ty : r'.ty = r.ty
  docs : List.Forall₂ fragment r.docs r'.docs

/-- The same spelling of an arrow but for its documentation. -/
inductive ArrowForm.Mirrors : ArrowForm → ArrowForm → Prop
  | plain : Mirrors plain plain
  | long : Mirrors long long
  | documented {docs docs' : List String} (h : List.Forall₂ fragment docs docs') :
    Mirrors (documented docs) (documented docs')
  | named (method : String) {docs docs' : List String} (h : List.Forall₂ fragment docs docs') :
    Mirrors (named method docs) (named method docs')

/-- An arrow and the position behind it. -/
structure StepMirrors (step step' : Arrow × NodeGroup) : Prop where
  form : step.1.form.Mirrors fragment step'.1.form
  targets : List.Forall₂ (NodeRef.Mirrors fragment) step.2 step'.2

structure Chain.Mirrors (c c' : Chain) : Prop where
  docs : List.Forall₂ fragment c.docs c'.docs
  first : List.Forall₂ (NodeRef.Mirrors fragment) c.first c'.first
  rest : List.Forall₂ (StepMirrors fragment) c.rest c'.rest

inductive Statement.Mirrors : Statement → Statement → Prop
  | node {r r' : NodeRef} (h : r.Mirrors fragment r') : Mirrors (node r) (node r')
  | chain {c c' : Chain} (h : c.Mirrors fragment c') : Mirrors (chain c) (chain c')

end

variable {src src' : Source} {m : Mirror src src'}

/-- The headers are the same, their names at corresponding tokens. -/
structure Header.Mirrors (m : Mirror src src') (h h' : Header) : Prop where
  vis : h'.vis = h.vis
  name : m.token h.name h'.name
  kind : h.name.kind = .identifier
  generics : h'.generics = h.generics
  predicates : h'.predicates = h.predicates

namespace Mirror

/-- Corresponding tokens are ahead. -/
structure Streams (m : Mirror src src') (s s' : TokenStream) : Prop where
  ahead : List.Forall₂ m.token s.ahead s'.ahead
  last : m.token s.last s'.last

variable {s s' : TokenStream}

theorem Streams.peek (h : m.Streams s s') (n : Nat) : m.token (s.peek n) (s'.peek n) := by
  obtain ⟨ahead, last⟩ := s
  obtain ⟨ahead', last'⟩ := s'
  obtain ⟨hahead, hlast⟩ := h
  unfold TokenStream.peek
  dsimp only at hahead hlast ⊢
  induction hahead generalizing n with
  | nil => exact hlast
  | cons ht _ ih =>
    cases n with
    | zero => exact ht
    | succ n => exact ih n

theorem Streams.current (h : m.Streams s s') : m.token s.current s'.current := h.peek 0

theorem Streams.tail (h : m.Streams s s') :
    m.Streams { s with ahead := s.ahead.tail } { s' with ahead := s'.ahead.tail } := by
  obtain ⟨ahead, last⟩ := s
  obtain ⟨ahead', last'⟩ := s'
  obtain ⟨hahead, hlast⟩ := h
  refine ⟨?_, hlast⟩
  cases hahead with
  | nil => exact .nil
  | cons _ hrest => exact hrest

/-- Identifiers that correspond have the same value. -/
theorem value_identifier {t t' : Token} (h : m.token t t') (hkind : t.kind = .identifier) : t'.value = t.value :=
  m.value h (by rw [hkind]; decide) (by rw [hkind]; decide)

theorem Streams.startsAttribute (h : m.Streams s s') (name : String) :
    s'.startsAttribute name = s.startsAttribute name := by
  unfold TokenStream.startsAttribute
  rw [m.kind h.current, m.kind (h.peek 1), m.kind (h.peek 2)]
  by_cases hkind : (s.peek 2).kind = .identifier
  · rw [value_identifier (h.peek 2) hkind]
  · rw [← ne_eq, ← beq_eq_false_iff_ne] at hkind
    rw [hkind, Bool.and_false, Bool.false_and, Bool.false_and]

theorem Streams.startsDocAttribute (h : m.Streams s s') : s'.startsDocAttribute = s.startsDocAttribute := by
  unfold TokenStream.startsDocAttribute
  rw [h.startsAttribute, m.kind (h.peek 3)]

/-! ## Searches -/

variable {ts ts' : List Token}

theorem afterPreamble (h : List.Forall₂ m.token ts ts') (depth : Option Nat) :
    List.Forall₂ m.token (Typestate.afterPreamble depth ts) (Typestate.afterPreamble depth ts') := by
  induction h generalizing depth with
  | nil => cases depth <;> exact .nil
  | @cons t t' ts ts' ht hts ih =>
    cases depth with
    | none =>
      have hhead : ts'.head?.any (·.kind == .leftBracket) = ts.head?.any (·.kind == .leftBracket) := by
        cases hts with
        | nil => rfl
        | cons hu _ =>
          rw [List.head?_cons, List.head?_cons, Option.any_some, Option.any_some, m.kind hu]
      rw [Typestate.afterPreamble, Typestate.afterPreamble, hhead, m.kind ht]
      split
      · exact ih none
      · exact ih _
      · exact .cons ht hts
    | some depth =>
      rw [Typestate.afterPreamble, Typestate.afterPreamble, m.kind ht]
      split <;> exact ih _

theorem Streams.startsHeader (h : m.Streams s s') : s'.startsHeader = s.startsHeader := by
  have hafter : m.Streams { s with ahead := Typestate.afterPreamble none s.ahead }
      { s' with ahead := Typestate.afterPreamble none s'.ahead } := ⟨afterPreamble h.ahead none, h.last⟩
  unfold TokenStream.startsHeader
  dsimp only
  rw [m.kind hafter.current, m.kind (hafter.peek 1)]
  split
  · rfl
  · next hkind => rw [value_identifier hafter.current hkind]
  · rfl

/-- What searches for a stop have found. -/
inductive Searches (m : Mirror src src') : Balanced → Balanced → Prop
  | stopped {taken taken' rest rest' : List Token} (htaken : List.Forall₂ m.token taken taken')
    (hrest : List.Forall₂ m.token rest rest') : Searches m (.stopped taken rest) (.stopped taken' rest')
  | endOfInput : Searches m .endOfInput .endOfInput
  | unbalanced {found found' : Token} {rest rest' : List Token} (hfound : m.token found found')
    (hrest : List.Forall₂ m.token rest rest') : Searches m (.unbalanced found rest) (.unbalanced found' rest')

theorem Searches.prepend {t t' : Token} {b b' : Balanced} (h : m.Searches b b') (ht : m.token t t') :
    m.Searches (b.prepend t) (b'.prepend t') := by
  cases h with
  | stopped htaken hrest => exact .stopped (.cons ht htaken) hrest
  | endOfInput => exact .endOfInput
  | unbalanced hfound hrest => exact .unbalanced hfound hrest

theorem upTo (h : List.Forall₂ m.token ts ts') (stops : List TokenKind) (depth : Nat)
    (previous : Option TokenKind) :
    m.Searches (Balanced.upTo stops depth previous ts) (Balanced.upTo stops depth previous ts') := by
  induction h generalizing depth previous with
  | nil => exact .endOfInput
  | @cons t t' ts ts' ht hts ih =>
    rw [Balanced.upTo, Balanced.upTo, m.kind ht]
    split
    · exact .stopped .nil (.cons ht hts)
    · split
      · exact (ih _ _).prepend ht
      · split
        · split
          · exact .unbalanced ht hts
          · exact (ih _ _).prepend ht
        · exact (ih _ _).prepend ht

theorem closeBracket (h : List.Forall₂ m.token ts ts') (depth : Nat) :
    Option.Rel (fun found found' => List.Forall₂ m.token found.1 found'.1 ∧ List.Forall₂ m.token found.2 found'.2)
      (Typestate.closeBracket depth ts) (Typestate.closeBracket depth ts') := by
  have hprepend : ∀ {t t' : Token} {found found' : Option (List Token × List Token)}, m.token t t' →
      Option.Rel (fun found found' => List.Forall₂ m.token found.1 found'.1 ∧
        List.Forall₂ m.token found.2 found'.2) found found' →
      Option.Rel (fun found found' => List.Forall₂ m.token found.1 found'.1 ∧
        List.Forall₂ m.token found.2 found'.2) (found.map fun (taken, rest) => (t :: taken, rest))
        (found'.map fun (taken, rest) => (t' :: taken, rest)) := by
    intro t t' found found' ht hfound
    cases hfound with
    | none => exact .none
    | some hfound => exact .some ⟨.cons ht hfound.1, hfound.2⟩
  induction h generalizing depth with
  | nil => exact .none
  | @cons t t' ts ts' ht hts ih =>
    rw [Typestate.closeBracket, Typestate.closeBracket, m.kind ht]
    refine hprepend ht ?_
    split
    · exact ih _
    · split
      · exact .some ⟨.nil, hts⟩
      · exact ih _
    · exact ih _

end Mirror

namespace Parser

variable {α β γ δ : Type} {wanted : α → Prop}

/-- Whenever the first reader succeeds with a result that is wanted, the second, given corresponding tokens,
succeeds with a related result and leaves corresponding tokens. -/
def RepeatsIf (m : Mirror src src') (wanted : α → Prop) (p : Parser α) (q : Parser β)
    (related : α → β → Prop) : Prop :=
  ∀ s s' a s₁, m.Streams s s' → p src s = .ok a s₁ → wanted a →
    ∃ b s₁', q src' s' = .ok b s₁' ∧ m.Streams s₁ s₁' ∧ related a b

/-- Whenever the first reader succeeds, the second does. -/
abbrev Repeats (m : Mirror src src') (p : Parser α) (q : Parser β) (related : α → β → Prop) : Prop :=
  RepeatsIf m (fun _ => True) p q related

/-! ## Rules -/

variable {p : Parser α} {q : Parser β} {next : α → Parser γ} {next' : β → Parser δ}
  {related related' : α → β → Prop} {post : γ → δ → Prop} {kept : γ → Prop}

theorem repeats_pure {a : α} {b : β} (h : related a b) : RepeatsIf m wanted (pure a) (pure b) related := by
  rintro s s' _ _ hs ⟨⟩ -
  exact ⟨b, s', rfl, hs, h⟩

theorem Repeats.restrict (h : Repeats m p q related) : RepeatsIf m wanted p q related :=
  fun s s' a s₁ hs hrun _ => h s s' a s₁ hs hrun trivial

theorem RepeatsIf.weaken (h : RepeatsIf m wanted p q related) (hr : ∀ a b, related a b → related' a b) :
    RepeatsIf m wanted p q related' := by
  intro s s' a s₁ hs hrun ha
  obtain ⟨b, s₁', hrun', hs₁, hab⟩ := h s s' a s₁ hs hrun ha
  exact ⟨b, s₁', hrun', hs₁, hr a b hab⟩

/-- **Sequencing.** The results of the first part that are wanted are those that may lead to one. -/
theorem RepeatsIf.bind (h : RepeatsIf m wanted p q related)
    (hn : ∀ a b, related a b → RepeatsIf m kept (next a) (next' b) post)
    (hwanted : ∀ a s c s₁, next a src s = .ok c s₁ → kept c → wanted a) :
    RepeatsIf m kept (p >>= next) (q >>= next') post := by
  intro s s' c s₂ hs hrun hc
  obtain ⟨a, s₁, hp, hnext⟩ := Run.bind_eq_ok_iff.mp hrun
  obtain ⟨b, s₁', hq, hs₁, hab⟩ := h s s' a s₁ hs hp (hwanted a s₁ c s₂ hnext hc)
  obtain ⟨d, s₂', hnext', hs₂, hcd⟩ := hn a b hab s₁ s₁' c s₂ hs₁ hnext hc
  exact ⟨d, s₂', Run.bind_eq_ok_iff.mpr ⟨b, s₁', hq, hnext'⟩, hs₂, hcd⟩

theorem Repeats.bind (h : Repeats m p q related)
    (hn : ∀ a b, related a b → RepeatsIf m kept (next a) (next' b) post) :
    RepeatsIf m kept (p >>= next) (q >>= next') post :=
  RepeatsIf.bind h hn fun _ _ _ _ _ _ => trivial

theorem repeats_ite {c : Prop} [Decidable c] {p' : Parser α} {q' : Parser β}
    (hp : RepeatsIf m wanted p q related) (hp' : RepeatsIf m wanted p' q' related) :
    RepeatsIf m wanted (if c then p else p') (if c then q else q') related := by
  split
  · exact hp
  · exact hp'

/-- A reader that complains does not succeed. -/
theorem repeats_fail (t : Token) (cause : ParseCause) : RepeatsIf m wanted (fail t cause) q related := by
  rintro s s' _ _ - ⟨⟩

theorem repeats_fail_bind {r : Parser δ} (t : Token) (cause : ParseCause) :
    RepeatsIf m kept (fail t cause >>= next) r post := by
  rintro s s' _ _ - ⟨⟩

theorem repeats_set_fail (s : TokenStream) (t : Token) (cause : ParseCause) :
    RepeatsIf m wanted (set s >>= fun _ => fail t cause) q related := by
  rintro s s' _ _ - ⟨⟩

/-- What a round has come to. -/
def Round.value : Round β → β
  | .again acc => acc
  | .done acc => acc

/-- Both rounds are the last, or neither is, and what they come to is related. -/
def Round.Related (inv : β → γ → Prop) : Round β → Round γ → Prop
  | .again acc, .again acc' => inv acc acc'
  | .done acc, .done acc' => inv acc acc'
  | _, _ => False

/-- What a repetition starts with is wanted if its result is, and if this holds of each round. -/
theorem wanted_of_rounds {round : β → Parser (Round β)} {wanted : β → Prop}
    (hwanted : ∀ acc s r s₁, round acc src s = .ok r s₁ → wanted r.value → wanted acc) {acc a : β}
    {s s₂ : TokenStream} (hrun : roundsFrom round src acc s = .ok a s₂) (ha : wanted a) : wanted acc := by
  induction hn : s.ahead.length using Nat.strongRecOn generalizing s acc with
  | ind n ih =>
    unfold roundsFrom at hrun
    cases hfirst : round acc src s with
    | error e s₁ =>
      rw [hfirst] at hrun
      cases hrun
    | ok r s₁ =>
      rw [hfirst] at hrun
      refine hwanted acc s r s₁ hfirst ?_
      cases r with
      | done a₁ =>
        cases hrun
        exact ha
      | again a₁ =>
        dsimp only at hrun
        split at hrun
        · next hless => exact ih _ (hn ▸ hless) hrun rfl
        · cases hrun

/-- **Repetition.** Rounds that mirror each other while their results are wanted and an invariant holds are two loops
that do. -/
theorem RepeatsIf.rounds {round : β → Parser (Round β)} {round' : γ → Parser (Round γ)}
    {wanted : β → Prop} {inv : β → γ → Prop} {acc : β} {acc' : γ}
    (hround : ∀ acc acc', inv acc acc' → RepeatsIf m (fun r => wanted r.value)
      (round acc) (round' acc') (Round.Related inv))
    (hwanted : ∀ acc s r s₁, round acc src s = .ok r s₁ → wanted r.value → wanted acc)
    (h : inv acc acc') :
    RepeatsIf m wanted (Parser.rounds round acc) (Parser.rounds round' acc') inv := by
  intro s s' a s₂ hs hrun ha
  unfold Parser.rounds at hrun ⊢
  induction hn : s.ahead.length using Nat.strongRecOn generalizing s s' acc acc' with
  | ind n ih =>
    unfold roundsFrom at hrun ⊢
    cases hfirst : round acc src s with
    | error e s₁ =>
      rw [hfirst] at hrun
      cases hrun
    | ok r s₁ =>
      rw [hfirst] at hrun
      cases r with
      | done a₁ =>
        cases hrun
        obtain ⟨r', s₁', hrun', hs₁, hr⟩ := hround acc acc' h s s' _ _ hs hfirst ha
        rw [hrun']
        cases r' with
        | again b => exact hr.elim
        | done b => exact ⟨b, s₁', rfl, hs₁, hr⟩
      | again a₁ =>
        dsimp only at hrun
        split at hrun
        · next hless =>
          obtain ⟨r', s₁', hrun', hs₁, hr⟩ :=
            hround acc acc' h s s' _ _ hs hfirst (wanted_of_rounds hwanted hrun ha)
          rw [hrun']
          cases r' with
          | again b =>
            have hless' : s₁'.ahead.length < s'.ahead.length := by
              rwa [← hs₁.ahead.length_eq, ← hs.ahead.length_eq]
            dsimp only
            rw [if_pos hless']
            exact ih _ (hn ▸ hless) hr s₁ s₁' hs₁ hrun rfl
          | done b => exact hr.elim
        · cases hrun

theorem Repeats.rounds {round : β → Parser (Round β)} {round' : γ → Parser (Round γ)}
    {inv : β → γ → Prop} {acc : β} {acc' : γ}
    (hround : ∀ acc acc', inv acc acc' → Repeats m (round acc) (round' acc') (Round.Related inv))
    (h : inv acc acc') : Repeats m (Parser.rounds round acc) (Parser.rounds round' acc') inv :=
  RepeatsIf.rounds hround (fun _ _ _ _ _ _ => trivial) h

/-! ## Tokens -/

theorem repeats_get : Repeats m (get : Parser TokenStream) (get : Parser TokenStream) m.Streams := by
  rintro s s' _ _ hs ⟨⟩ -
  exact ⟨s', s', rfl, hs, hs⟩

theorem repeats_set {s s' : TokenStream} (h : m.Streams s s') :
    Repeats m (set s : Parser PUnit) (set s' : Parser PUnit) fun _ _ => True := by
  rintro s₁ s₁' _ _ - ⟨⟩ -
  exact ⟨_, s', rfl, h, trivial⟩

theorem repeats_read : Repeats m (read : Parser Source) (read : Parser Source) fun a b => a = src ∧ b = src' := by
  rintro s s' _ _ hs ⟨⟩ -
  exact ⟨_, s', rfl, hs, rfl, rfl⟩

theorem repeats_current : Repeats m current current m.token := by
  rintro s s' _ _ hs ⟨⟩ -
  exact ⟨_, s', rfl, hs, hs.current⟩

theorem repeats_isAt (k : TokenKind) : Repeats m (isAt k) (isAt k) Eq := by
  rintro s s' _ _ hs ⟨⟩ -
  refine ⟨_, s', rfl, hs, ?_⟩
  rw [m.kind hs.current]

theorem repeats_advance : Repeats m advance advance m.token := by
  intro s s' a s₁ hs hrun _
  rw [advance_apply] at hrun
  cases hrun
  exact ⟨_, _, advance_apply src' s', hs.tail, hs.current⟩

theorem repeats_accept {accept : TokenKind → Prop} [DecidablePred accept] {cause : Token → ParseCause} :
    Repeats m (do
      let t ← current
      if accept t.kind then advance else fail t (cause t)) (do
      let t ← current
      if accept t.kind then advance else fail t (cause t)) fun t t' => m.token t t' ∧ accept t.kind := by
  intro s s' a s₁ hs hrun _
  change (if accept s.current.kind then advance else fail s.current (cause s.current)) src s = _ at hrun
  change ∃ b s₁', (if accept s'.current.kind then advance else fail s'.current (cause s'.current)) src' s' = _ ∧ _
  rw [m.kind hs.current]
  split at hrun
  · next haccept =>
    rw [advance_apply] at hrun
    cases hrun
    rw [if_pos haccept]
    exact ⟨_, _, advance_apply src' s', hs.tail, hs.current, haccept⟩
  · cases hrun

theorem repeats_expect (k : TokenKind) : Repeats m (expect k) (expect k) fun t t' => m.token t t' ∧ t.kind = k :=
  @repeats_accept src src' m (· = k) _ fun t => .expected (.kind k) t

theorem repeats_expectName :
    Repeats m expectName expectName fun t t' => m.token t t' ∧ t.kind.isName = true :=
  @repeats_accept src src' m (·.isName = true) _ fun t => .expected (.kind .identifier) t

/-! ## Texts -/

theorem repeats_textUpTo (stops : List TokenKind) (what : String) :
    Repeats m (textUpTo stops what) (textUpTo stops what) Eq := by
  unfold textUpTo
  refine repeats_get.bind fun s s' hs => ?_
  have hsearch := Mirror.upTo hs.ahead stops 0 none
  generalize Balanced.upTo stops 0 none s.ahead = found at hsearch
  generalize Balanced.upTo stops 0 none s'.ahead = found' at hsearch
  cases hsearch with
  | @stopped taken taken' rest rest' htaken hrest =>
    cases htaken with
    | nil => exact repeats_fail _ _
    | cons ht htaken =>
      have hleft : m.Streams { s with ahead := rest } { s' with ahead := rest' } := ⟨hrest, hs.last⟩
      refine (repeats_set hleft).bind fun _ _ _ => repeats_read.bind ?_
      rintro _ _ ⟨rfl, rfl⟩
      exact repeats_pure (m.text (.cons ht htaken)).symm
  | endOfInput => exact repeats_set_fail _ _ _
  | unbalanced => exact repeats_set_fail _ _ _

theorem repeats_verbatimAttribute : Repeats m verbatimAttribute verbatimAttribute Eq := by
  unfold verbatimAttribute
  refine (repeats_expect .pound).bind fun first first' ⟨hfirst, _⟩ =>
    (repeats_expect .leftBracket).bind fun opening opening' ⟨hopening, _⟩ =>
      repeats_get.bind fun s s' hs => ?_
  have hsearch := Mirror.closeBracket hs.ahead 0
  generalize closeBracket 0 s.ahead = found at hsearch
  generalize closeBracket 0 s'.ahead = found' at hsearch
  cases hsearch with
  | none => exact repeats_set_fail _ _ _
  | @some found found' hfound =>
    have hleft : m.Streams { s with ahead := found.2 } { s' with ahead := found'.2 } := ⟨hfound.2, hs.last⟩
    refine (repeats_set hleft).bind fun _ _ _ => repeats_read.bind ?_
    rintro _ _ ⟨rfl, rfl⟩
    exact repeats_pure (m.text (.cons hfirst (.cons hopening hfound.1))).symm

/-! ## In front of machines and statements -/

theorem repeats_docAttribute : Repeats m docAttribute docAttribute fun text text' =>
    List.Forall₂ m.fragment (docFragments text) (docFragments text') := by
  unfold docAttribute
  exact (repeats_expect _).bind fun _ _ _ => (repeats_expect _).bind fun _ _ _ =>
    (repeats_expect _).bind fun _ _ _ => (repeats_expect _).bind fun _ _ _ =>
      (repeats_expect _).bind fun _ _ ⟨htext, _⟩ => (repeats_expect _).bind fun _ _ _ =>
        repeats_pure (m.fragments htext)

theorem repeats_docs : Repeats m docs docs (List.Forall₂ m.fragment) := by
  unfold docs
  refine Repeats.rounds (fun acc acc' hacc => ?_) .nil
  refine repeats_current.bind fun t t' ht => ?_
  rw [m.kind ht]
  split
  · exact repeats_advance.bind fun t t' ht => repeats_pure (List.rel_append hacc (m.fragments ht))
  · refine repeats_get.bind fun s s' hs => ?_
    rw [hs.startsDocAttribute]
    split
    · exact repeats_docAttribute.bind fun text text' htext => repeats_pure (List.rel_append hacc htext)
    · exact repeats_fail _ _
  · exact repeats_pure hacc

theorem repeats_modulePath : Repeats m modulePath modulePath Eq := by
  have hrest : ∀ root : String, Repeats m (do
      let first ← expect .identifier
      rounds (fun path => do
        if ← isAt .pathSeparator then
          let _ ← advance
          let next ← expect .identifier
          return .again (path ++ "::" ++ next.value)
        else return .done path) (root ++ first.value)) (do
      let first ← expect .identifier
      rounds (fun path => do
        if ← isAt .pathSeparator then
          let _ ← advance
          let next ← expect .identifier
          return .again (path ++ "::" ++ next.value)
        else return .done path) (root ++ first.value)) Eq := by
    intro root
    refine (repeats_expect _).bind fun first first' ⟨hfirst, hkind⟩ => ?_
    rw [Mirror.value_identifier hfirst hkind]
    refine Repeats.rounds ?_ rfl
    rintro acc _ rfl
    refine (repeats_isAt _).bind ?_
    rintro b _ rfl
    split
    · refine repeats_advance.bind fun _ _ _ => (repeats_expect _).bind fun t t' ⟨ht, hkind⟩ => ?_
      rw [Mirror.value_identifier ht hkind]
      exact repeats_pure rfl
    · exact repeats_pure rfl
  unfold modulePath
  refine (repeats_isAt _).bind ?_
  rintro b _ rfl
  dsimp only
  split
  · exact repeats_advance.bind fun _ _ _ => hrest "::"
  · exact hrest ""

/-- A token that is looked at behind the next one is the one that is taken after it. -/
theorem repeats_peek_advance {refuse : Token → Prop} [DecidablePred refuse] {next : Token → Parser γ}
    {next' : Token → Parser δ} {p : Parser γ} {q : Parser δ}
    (hrefuse : ∀ t t', m.token t t' → (refuse t' ↔ refuse t)) (hp : Repeats m p q post)
    (hn : ∀ t t', m.token t t' → ¬ refuse t → Repeats m (next t) (next' t') post) :
    Repeats m (do
      let t ← peek
      if refuse t then p
      else
        let _ ← advance
        let t ← advance
        next t) (do
      let t ← peek
      if refuse t then q
      else
        let _ ← advance
        let t ← advance
        next' t) post := by
  have hcurrent : ∀ s : TokenStream, ({ s with ahead := s.ahead.tail } : TokenStream).current = s.peek 1 := by
    rintro ⟨_ | ⟨t, rest⟩, last⟩ <;> rfl
  intro s s' a s₁ hs hrun _
  change (if refuse (s.peek 1) then p else _) src s = _ at hrun
  change ∃ b s₁', (if refuse (s'.peek 1) then q else _) src' s' = _ ∧ _
  by_cases hno : refuse (s.peek 1)
  · rw [if_pos hno] at hrun
    rw [if_pos ((hrefuse _ _ (hs.peek 1)).mpr hno)]
    exact hp s s' a s₁ hs hrun trivial
  · rw [if_neg hno] at hrun
    rw [if_neg fun h => hno ((hrefuse _ _ (hs.peek 1)).mp h)]
    obtain ⟨_, s₂, hfirst, hrun⟩ := Run.bind_eq_ok_iff.mp hrun
    obtain ⟨t, s₃, hsecond, hrun⟩ := Run.bind_eq_ok_iff.mp hrun
    rw [advance_apply] at hfirst
    cases hfirst
    rw [advance_apply, hcurrent] at hsecond
    cases hsecond
    obtain ⟨b, s₁', hrun', hrest⟩ := hn _ _ (hs.peek 1) hno _ _ a s₁ hs.tail.tail hrun trivial
    refine ⟨b, s₁', Run.bind_eq_ok_iff.mpr ⟨_, _, advance_apply src' s', ?_⟩, hrest⟩
    refine Run.bind_eq_ok_iff.mpr ⟨_, _, advance_apply src' _, ?_⟩
    rw [hcurrent]
    exact hrun'

theorem repeats_visibility : Repeats m visibility visibility Eq := by
  unfold visibility
  refine (repeats_isAt _).bind ?_
  rintro b _ rfl
  split
  · exact repeats_pure rfl
  refine repeats_advance.bind fun _ _ _ => (repeats_isAt _).bind ?_
  rintro b _ rfl
  split
  · exact repeats_pure rfl
  refine repeats_peek_advance (fun t t' ht => ?_) (repeats_pure rfl) fun scope scope' hscope haccept => ?_
  · by_cases hkind : t.kind = .identifier
    · rw [m.kind ht, Mirror.value_identifier ht hkind]
    · rw [m.kind ht]
      simp [hkind]
  · have hkind : scope.kind = .identifier := by
      by_contra hkind
      exact haccept (by simp [hkind])
    rw [Mirror.value_identifier hscope hkind]
    split
    · refine repeats_modulePath.bind ?_
      rintro path _ rfl
      exact (repeats_expect _).bind fun _ _ _ => repeats_pure rfl
    · exact (repeats_expect _).bind fun _ _ _ => repeats_pure rfl

theorem repeats_truthValue : Repeats m truthValue truthValue Eq := by
  unfold truthValue
  refine repeats_current.bind fun t t' ht => ?_
  rw [m.kind ht]
  split
  · exact repeats_advance.bind fun _ _ _ => repeats_pure rfl
  · exact repeats_advance.bind fun _ _ _ => repeats_pure rfl
  · exact repeats_fail _ _

theorem repeats_settingValue {key : String} {value : Parser (List Setting)}
    (h : settingValue key = some value) : Repeats m value value Eq := by
  unfold settingValue at h
  split at h <;> cases h
  · refine repeats_visibility.bind ?_
    rintro vis _ rfl
    refine (repeats_expect _).bind fun name name' ⟨hname, hkind⟩ => ?_
    rw [Mirror.value_identifier hname hkind]
    exact repeats_pure rfl
  · refine repeats_truthValue.bind ?_
    rintro on _ rfl
    exact repeats_pure rfl
  · refine repeats_modulePath.bind ?_
    rintro path _ rfl
    exact repeats_pure rfl
  · refine repeats_truthValue.bind ?_
    rintro on _ rfl
    exact repeats_pure rfl
  · refine repeats_truthValue.bind ?_
    rintro on _ rfl
    exact repeats_pure rfl

/-! ## Headers -/

theorem repeats_generics : Repeats m generics generics Eq := by
  unfold generics
  refine (repeats_isAt _).bind ?_
  rintro b _ rfl
  split
  · exact repeats_pure rfl
  refine repeats_advance.bind fun _ _ _ => (repeats_isAt _).bind ?_
  rintro b _ rfl
  split
  · exact repeats_advance.bind fun _ _ _ => repeats_pure rfl
  refine (repeats_textUpTo _ _).bind ?_
  rintro params _ rfl
  exact (repeats_expect _).bind fun _ _ _ => repeats_pure rfl

theorem repeats_whereClause : Repeats m whereClause whereClause Eq := by
  unfold whereClause
  refine (repeats_isAt _).bind ?_
  rintro b _ rfl
  split
  · exact repeats_pure rfl
  refine repeats_advance.bind fun word word' _ => (repeats_isAt _).bind ?_
  rintro b _ rfl
  split
  · exact repeats_pure rfl
  refine (repeats_textUpTo _ _).bind ?_
  rintro text _ rfl
  dsimp only
  split
  · exact repeats_fail_bind _ _
  · exact repeats_pure rfl

theorem repeats_header : Repeats m header header (Header.Mirrors m) := by
  have hrest : ∀ vis : String, Repeats m (do
      let name ← expect .identifier
      let generics ← generics
      let predicates ← whereClause
      return ({ vis, name, generics, predicates } : Header)) (do
      let name ← expect .identifier
      let generics ← generics
      let predicates ← whereClause
      return ({ vis, name, generics, predicates } : Header)) (Header.Mirrors m) := by
    intro vis
    refine (repeats_expect _).bind fun name name' ⟨hname, hkind⟩ => repeats_generics.bind ?_
    rintro generics _ rfl
    refine repeats_whereClause.bind ?_
    rintro predicates _ rfl
    exact repeats_pure ⟨rfl, hname, hkind, rfl, rfl⟩
  unfold header
  refine repeats_visibility.bind ?_
  rintro vis _ rfl
  refine repeats_get.bind fun s s' hs => ?_
  have hword : (s'.current.kind == .identifier && s'.current.value == enumWord &&
      (s'.peek 1).kind == .identifier) = (s.current.kind == .identifier && s.current.value == enumWord &&
      (s.peek 1).kind == .identifier) := by
    rw [m.kind hs.current, m.kind (hs.peek 1)]
    by_cases hkind : s.current.kind = .identifier
    · rw [Mirror.value_identifier hs.current hkind]
    · simp only [beq_eq_false_iff_ne.mpr hkind, Bool.false_and]
  rw [hword]
  exact repeats_ite (repeats_advance.bind fun _ _ _ => hrest vis) (hrest vis)

/-! ## Statements -/

theorem repeats_nodeRef {docs docs' : List String} (hdocs : List.Forall₂ m.fragment docs docs') :
    Repeats m (nodeRef docs) (nodeRef docs') (NodeRef.Mirrors m.fragment) := by
  unfold nodeRef
  refine repeats_current.bind fun t t' ht => ?_
  rw [m.kind ht]
  by_cases hkind : t.kind = .identifier
  · have hno : ¬ (t.kind != .identifier) = true := by simp [hkind]
    rw [if_neg hno, if_neg hno, Mirror.value_identifier ht hkind]
    refine repeats_advance.bind fun _ _ _ => ?_
    cases Identifier.canonical t.value with
    | error cause => exact repeats_fail _ _
    | ok name =>
      refine (repeats_isAt _).bind ?_
      rintro b _ rfl
      dsimp only
      split
      · refine repeats_advance.bind fun _ _ _ => ?_
        have htype : Repeats m (some <$> textUpTo typeStops "type") (some <$> textUpTo typeStops "type") Eq := by
          rw [← bind_pure_comp]
          refine (repeats_textUpTo _ _).bind ?_
          rintro ty _ rfl
          exact repeats_pure rfl
        refine htype.bind ?_
        rintro ty _ rfl
        exact repeats_pure ⟨rfl, rfl, hdocs⟩
      · exact repeats_pure ⟨rfl, rfl, hdocs⟩
  · rw [if_pos (by simpa using hkind)]
    exact repeats_fail_bind _ _

theorem repeats_group {docs docs' : List String} (hdocs : List.Forall₂ m.fragment docs docs') :
    Repeats m (group docs) (group docs') (List.Forall₂ (NodeRef.Mirrors m.fragment)) := by
  unfold group
  refine (repeats_nodeRef hdocs).bind fun r r' hr => ?_
  refine Repeats.rounds (fun acc acc' hacc => ?_) (.cons hr .nil)
  refine (repeats_isAt _).bind ?_
  rintro b _ rfl
  split
  · refine repeats_advance.bind fun _ _ _ => (repeats_nodeRef .nil).bind fun r r' hr => repeats_pure ?_
    exact List.rel_append hacc (.cons hr .nil)
  · exact repeats_pure hacc

theorem repeats_arrowHead : Repeats m arrowHead arrowHead m.token :=
  RepeatsIf.weaken (@repeats_accept src src' m (· = .arrow) _ fun t => .expected .arrowHead t) fun _ _ h => h.1

theorem forall₂_inlineDocs {text text' : String}
    (h : List.Forall₂ m.fragment (docFragments text) (docFragments text')) :
    List.Forall₂ m.fragment (inlineDocs text) (inlineDocs text') := by
  unfold inlineDocs
  rw [List.forall₂_map_left_iff, List.forall₂_map_right_iff]
  exact h.imp fun _ _ => m.indented

theorem repeats_arrowLabel : Repeats m arrowLabel arrowLabel (ArrowForm.Mirrors m.fragment) := by
  unfold arrowLabel
  refine (repeats_isAt _).bind ?_
  rintro b _ rfl
  split
  · refine repeats_advance.bind fun text text' htext => repeats_pure ?_
    exact .documented (forall₂_inlineDocs (m.fragments htext))
  refine repeats_expectName.bind fun name name' ⟨hname, hkind⟩ => ?_
  have hvalue : name'.value = name.value := by
    refine m.value hname ?_ ?_ <;> · intro heq; rw [heq] at hkind; cases hkind
  rw [hvalue]
  refine (repeats_isAt _).bind ?_
  rintro b _ rfl
  split
  · refine repeats_advance.bind fun text text' htext => repeats_pure ?_
    exact .named _ (forall₂_inlineDocs (m.fragments htext))
  · exact repeats_pure (.named _ .nil)

theorem repeats_arrow : Repeats m arrow arrow fun a a' => a.form.Mirrors m.fragment a'.form := by
  -- What stands behind the dashes that an arrow starts with.
  have hrest : ∀ first first' : Token, Repeats m (do
      let form ← arrowLabel
      if ← isAt .minus then
        let _ ← advance
      let last ← arrowHead
      return ({ form, span := some (first.spanTo last) } : Arrow)) (do
      let form ← arrowLabel
      if ← isAt .minus then
        let _ ← advance
      let last ← arrowHead
      return ({ form, span := some (first'.spanTo last) } : Arrow))
      fun a a' => a.form.Mirrors m.fragment a'.form := by
    intro first first'
    refine repeats_arrowLabel.bind fun form form' hform => (repeats_isAt _).bind ?_
    rintro b _ rfl
    dsimp only
    split
    · exact repeats_advance.bind fun _ _ _ => repeats_arrowHead.bind fun _ _ _ => repeats_pure hform
    · exact repeats_arrowHead.bind fun _ _ _ => repeats_pure hform
  unfold arrow
  refine repeats_current.bind fun first first' hfirst => ?_
  rw [m.kind hfirst]
  split
  · exact repeats_advance.bind fun _ _ _ => repeats_pure .plain
  · refine repeats_advance.bind fun _ _ _ => (repeats_isAt _).bind ?_
    rintro b _ rfl
    split
    · exact repeats_advance.bind fun _ _ _ => repeats_pure .long
    refine (repeats_isAt _).bind ?_
    rintro b _ rfl
    dsimp only
    split
    · exact repeats_advance.bind fun _ _ _ => hrest _ _
    · exact hrest _ _
  · exact repeats_fail _ _

theorem isNamed_of_mirrors {fragment : String → String → Prop} {a a' : Arrow}
    (h : a.form.Mirrors fragment a'.form) : a'.isNamed = a.isNamed := by
  unfold Arrow.isNamed Arrow.method?
  generalize a.form = form at h
  generalize a'.form = form' at h
  cases h <;> rfl

theorem isMany_of_mirrors {fragment : String → String → Prop} {g g' : NodeGroup}
    (h : List.Forall₂ (NodeRef.Mirrors fragment) g g') : NodeGroup.isMany g' = NodeGroup.isMany g := by
  unfold NodeGroup.isMany
  rw [h.length_eq]

theorem repeats_chainRest : Repeats m chainRest chainRest (List.Forall₂ (StepMirrors m.fragment)) := by
  unfold chainRest
  refine Repeats.rounds (fun acc acc' hacc => ?_) .nil
  refine (repeats_isAt _).bind ?_
  rintro b _ rfl
  split
  · exact repeats_pure hacc
  refine repeats_arrow.bind fun a a' ha => repeats_current.bind fun _ _ _ =>
    (repeats_group .nil).bind fun g g' hg => ?_
  rw [isNamed_of_mirrors ha, isMany_of_mirrors hg]
  split
  · exact repeats_fail_bind _ _
  · exact repeats_pure (List.rel_append hacc (.cons ⟨ha, hg⟩ .nil))

theorem repeats_statement : Repeats m statement statement (Statement.Mirrors m.fragment) := by
  have hrest : ∀ {docs docs' : List String} {g g' : NodeGroup}, List.Forall₂ m.fragment docs docs' →
      List.Forall₂ (NodeRef.Mirrors m.fragment) g g' → Repeats m (do
      let rest ← chainRest
      if rest.isEmpty then fail (← current) .loneGroup
      let _ ← expect .semicolon
      return Statement.chain { docs, first := g.map ({ · with docs := [] }), rest }) (do
      let rest ← chainRest
      if rest.isEmpty then fail (← current) .loneGroup
      let _ ← expect .semicolon
      return Statement.chain { docs := docs', first := g'.map ({ · with docs := [] }), rest })
      (Statement.Mirrors m.fragment) := by
    intro docs docs' g g' hdocs hg
    refine repeats_chainRest.bind fun rest rest' hrest => ?_
    have hempty : rest'.isEmpty = rest.isEmpty := by cases hrest <;> rfl
    rw [hempty]
    dsimp only
    split
    · exact repeats_current.bind fun _ _ _ => repeats_fail_bind _ _
    refine (repeats_expect _).bind fun _ _ _ => repeats_pure (.chain ⟨hdocs, ?_, hrest⟩)
    rw [List.forall₂_map_left_iff, List.forall₂_map_right_iff]
    exact hg.imp fun _ _ hr => ⟨hr.name, hr.ty, .nil⟩
  unfold statement
  refine repeats_docs.bind fun docs docs' hdocs => (repeats_group hdocs).bind fun g g' hg =>
    (repeats_isAt _).bind ?_
  rintro b _ rfl
  rw [isMany_of_mirrors hg]
  dsimp only
  split
  · cases hg with
    | nil => exact hrest hdocs .nil
    | cons hr hg => exact repeats_advance.bind fun _ _ _ => repeats_pure (.node hr)
  · exact hrest hdocs hg

theorem repeats_statements (terminator : TokenKind) :
    Repeats m (statements terminator) (statements terminator) (List.Forall₂ (Statement.Mirrors m.fragment)) := by
  unfold statements
  refine Repeats.rounds (fun acc acc' hacc => ?_) .nil
  refine (repeats_isAt _).bind ?_
  rintro b _ rfl
  split
  · exact repeats_pure hacc
  refine repeats_current.bind fun t t' ht => ?_
  rw [m.kind ht]
  dsimp only
  split
  · exact repeats_fail_bind _ _
  · exact repeats_statement.bind fun s s' hs => repeats_pure (List.rel_append hacc (.cons hs .nil))

end Parser

end Typestate
