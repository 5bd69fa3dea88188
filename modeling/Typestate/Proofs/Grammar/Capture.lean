import Typestate.Grammar.Document
import Typestate.Proofs.Grammar.Arrows
import Typestate.Proofs.Grammar.Attributes
import Typestate.Proofs.Token.Piece

/-!
Where the texts of a machine come from. A payload type, generic parameters, where predicates and an
attribute are each the text of some tokens that stand next to each other, and their places among all
tokens are known (`Source.parse_captured`). On the way every reader of the grammar is shown to take tokens
or to end, so that reading never stalls (`Source.parse_ne_stalled`).
-/

namespace Typestate

/-! ## Tokens of texts -/

/-- The tokens between the colon behind the name of a node reference and the stop that ends its type. -/
structure TypeTokens (ts : List Token) (r : NodeRef) (taken : List Token) : Prop where
  nonempty : taken ≠ []
  place : ∃ before name colon stop after, ts = before ++ name :: colon :: (taken ++ stop :: after) ∧
    r.span = some name.span ∧ colon.kind = .colon ∧
    Balanced.upTo Parser.typeStops 0 none (taken ++ stop :: after) = .stopped taken (stop :: after)

/-- Tokens in angle brackets, with the tokens after them. -/
structure Angled (inner whole after : List Token) : Prop where
  shape : ∃ opening closing, whole = opening :: (inner ++ [closing]) ∧ opening.kind = .lessThan ∧
    closing.kind = .greaterThan ∧ (inner = [] ∨
      Balanced.upTo [.greaterThan] 0 none (inner ++ closing :: after) = .stopped inner (closing :: after))

/-- The tokens between the angle brackets behind the name of a machine. -/
structure GenericsTokens (ts : List Token) (span : Option Span) (taken : List Token) : Prop where
  nonempty : taken ≠ []
  place : ∃ before name params after, ts = before ++ name :: (params ++ after) ∧
    span = some name.span ∧ Angled taken params after

/-- The tokens between the word for a where clause, which stands behind the name of a machine and its
parameters, and the brace that opens the machine. -/
structure ClauseTokens (ts : List Token) (span : Option Span) (taken : List Token) : Prop where
  nonempty : taken ≠ []
  place : ∃ before name params word brace after clause,
    ts = before ++ name :: (params ++ word :: clause) ∧ span = some name.span ∧
    (params = [] ∨ ∃ inner, Angled inner params (word :: clause)) ∧ word.kind = .whereWord ∧
    clause = taken ++ brace :: after ∧ brace.kind = .leftBrace ∧
    Balanced.upTo [.leftBrace] 0 none clause = .stopped taken (brace :: after)

section
variable (src : Source) (ts : List Token)

/-- The type of a node reference, if it has one, is the text of its tokens. -/
def NodeRef.Captured (r : NodeRef) : Prop :=
  ∀ ty, r.ty = some ty → ∃ taken, TypeTokens ts r taken ∧ ty = src.textOf taken

/-- The node references of a statement. -/
def Statement.refs : Statement → List NodeRef
  | .node r => [r]
  | .chain c => c.nodeRefs

def Statement.Captured (s : Statement) : Prop := ∀ r ∈ s.refs, r.Captured src ts

/-- The attributes are the texts of parts of the tokens, in order. -/
def AttributesCaptured (attrs : List String) : Prop :=
  ∃ takens : List (List Token), attrs = takens.map src.textOf ∧ takens.flatten.Sublist ts ∧
    ∀ taken ∈ takens, AttributeTokens taken ∧ taken <:+: ts

/-- The parameters are the pieces of the text of their tokens, in brackets. -/
def GenericsCaptured (span : Option Span) (generics : String) : Prop :=
  generics = "" ∨ ∃ taken, GenericsTokens ts span taken ∧ generics = "<" ++
    String.intercalate ", " (Text.splitOutsideBrackets (src.textOf taken) (· == ',')) ++ ">"

/-- The predicates are the pieces of the text of their tokens. -/
def PredicatesCaptured (span : Option Span) (predicates : List String) : Prop :=
  predicates = [] ∨ ∃ taken, ClauseTokens ts span taken ∧
    predicates = Text.splitOutsideBrackets (src.textOf taken) (· == ',')

/-- All texts of a document come from the tokens. -/
structure Document.Captured (d : Document) : Prop where
  types : ∀ s ∈ d.statements, s.Captured src ts
  attrs : AttributesCaptured src ts d.attrs
  generics : GenericsCaptured src ts d.span d.generics
  predicates : PredicatesCaptured src ts d.span d.predicates

end

section
variable {src : Source} {ts ts' : List Token}

/-- What comes from the end of some tokens comes from all of them. -/
theorem NodeRef.Captured.of_suffix {r : NodeRef} (h : r.Captured src ts') (hs : ts' <:+ ts) :
    r.Captured src ts := by
  intro ty hty
  obtain ⟨taken, ⟨hne, before, name, colon, stop, after, rfl, hplace⟩, htext⟩ := h ty hty
  obtain ⟨front, rfl⟩ := hs
  refine ⟨taken, ⟨hne, front ++ before, name, colon, stop, after, ?_, hplace⟩, htext⟩
  rw [List.append_assoc]

theorem GenericsCaptured.of_suffix {span : Option Span} {generics : String}
    (h : GenericsCaptured src ts' span generics) (hs : ts' <:+ ts) :
    GenericsCaptured src ts span generics := by
  rcases h with rfl | ⟨taken, ⟨hne, before, name, params, after, rfl, hplace⟩, htext⟩
  · exact Or.inl rfl
  · obtain ⟨front, rfl⟩ := hs
    refine Or.inr ⟨taken, ⟨hne, front ++ before, name, params, after, ?_, hplace⟩, htext⟩
    rw [List.append_assoc]

theorem PredicatesCaptured.of_suffix {span : Option Span} {predicates : List String}
    (h : PredicatesCaptured src ts' span predicates) (hs : ts' <:+ ts) :
    PredicatesCaptured src ts span predicates := by
  rcases h with rfl | ⟨taken, ⟨hne, before, name, params, word, brace, after, clause, rfl, hplace⟩, htext⟩
  · exact Or.inl rfl
  · obtain ⟨front, rfl⟩ := hs
    refine Or.inr ⟨taken, ⟨hne, front ++ before, name, params, word, brace, after, clause, ?_, hplace⟩,
      htext⟩
    rw [List.append_assoc]

theorem captured_refs_of_suffix {rs : List NodeRef} (h : ∀ r ∈ rs, r.Captured src ts')
    (hs : ts' <:+ ts) : ∀ r ∈ rs, r.Captured src ts := fun r hr => (h r hr).of_suffix hs

/-- The type of a reference is no matter of its documentation. -/
theorem NodeRef.Captured.withDocs {r : NodeRef} (h : r.Captured src ts) (docs : List String) :
    { r with docs }.Captured src ts := by
  intro ty hty
  obtain ⟨taken, ⟨hne, hplace⟩, htext⟩ := h ty hty
  exact ⟨taken, ⟨hne, hplace⟩, htext⟩

/-- One more attribute stands behind the tokens of those before. -/
theorem AttributesCaptured.snoc {taken : List Token} {attrs : List String}
    (h : AttributesCaptured src ts attrs) (htaken : AttributeTokens taken) :
    AttributesCaptured src (ts ++ taken) (attrs ++ [src.textOf taken]) := by
  obtain ⟨takens, rfl, hsub, hall⟩ := h
  refine ⟨takens ++ [taken], by rw [List.map_append]; rfl, ?_, ?_⟩
  · rw [List.flatten_append, List.flatten_singleton]
    exact hsub.append (List.Sublist.refl taken)
  · intro taken' hmem
    rcases List.mem_append.mp hmem with hmem | hmem
    · exact ⟨(hall taken' hmem).1, (hall taken' hmem).2.trans (List.prefix_append ts taken).isInfix⟩
    · rw [List.mem_singleton.mp hmem]
      exact ⟨htaken, (List.suffix_append ts taken).isInfix⟩

theorem AttributesCaptured.of_prefix {more : List Token} {attrs : List String}
    (h : AttributesCaptured src ts attrs) : AttributesCaptured src (ts ++ more) attrs := by
  obtain ⟨takens, heq, hsub, hall⟩ := h
  refine ⟨takens, heq, hsub.trans (List.sublist_append_left ts more), fun taken hmem => ?_⟩
  exact ⟨(hall taken hmem).1, (hall taken hmem).2.trans (List.prefix_append ts more).isInfix⟩

end

namespace Parser

open TokenStream

variable {src : Source} {s : TokenStream}

/-! ## Texts -/

/-- What `textUpTo` took, and where it stopped. -/
structure Taken (stops : List TokenKind) (s : TokenStream) (taken : List Token) (s' : TokenStream) :
    Prop where
  last : s'.last = s.last
  nonempty : taken ≠ []
  ahead : s.ahead = taken ++ s'.ahead
  stopped : Balanced.upTo stops 0 none s.ahead = .stopped taken s'.ahead

theorem textUpTo_taken (stops : List TokenKind) (what : String) :
    Proceeds src s (textUpTo stops what) fun text s' =>
      ∃ taken, Taken stops s taken s' ∧ text = src.textOf taken := by
  unfold textUpTo
  refine from_get ?_
  split
  · exact proceeds_fail nofun
  · next taken rest hne hstopped =>
    refine from_set (from_read (from_pure ⟨taken, ?_, rfl⟩))
    exact ⟨rfl, hne, (Balanced.upTo_eq_stopped_iff.mp hstopped).1, hstopped⟩
  · exact from_set (proceeds_fail nofun)
  · exact from_set (proceeds_fail nofun)

theorem Taken.moves {stops : List TokenKind} {taken : List Token} {s' : TokenStream}
    (h : Taken stops s taken s') : s.Moves s' where
  last := h.last
  ahead := h.ahead ▸ List.suffix_append taken s'.ahead
  fewer := by
    have hlength : 0 < taken.length := List.length_pos_iff.mpr h.nonempty
    rw [h.ahead, List.length_append]
    omega

theorem Taken.exists_stop {stops : List TokenKind} {taken : List Token} {s' : TokenStream}
    (h : Taken stops s taken s') :
    ∃ stop after, s'.ahead = stop :: after ∧ stop.kind ∈ stops :=
  (Balanced.Reaches.of_upTo h.stopped).exists_stop

/-! ## In front of a machine -/

/-- Whole attributes are read, up to a token that is neither documentation nor starts one of them. -/
theorem preamble_captured (hs : s.Ended) :
    Proceeds src s preamble fun p s' =>
      (∃ outer, OuterTokens outer ∧ Passes outer s s' ∧ AttributesCaptured src outer p.attrs) ∧
      s'.current.kind ≠ .doc ∧ s'.current.kind ≠ .pound := by
  unfold preamble
  refine from_rounds (fun p s' => ∃ outer, OuterTokens outer ∧ Passes outer s s' ∧
    AttributesCaptured src outer p.attrs) ?_
    ⟨[], .nil, Passes.refl s, [], rfl, List.Sublist.refl _, nofun⟩
  rintro p s₁ ⟨outer, houter, h₁, hattrs⟩
  have hs₁ : s₁.Ended := h₁.ended hs
  -- Whatever takes tokens without making an attribute goes on with the same attributes.
  have hother : ∀ ts s₂, OuterTokens ts → ts ≠ [] → Passes ts s₁ s₂ →
      (∃ outer, OuterTokens outer ∧ Passes outer s s₂ ∧ AttributesCaptured src outer p.attrs) ∧
        s₂.ahead.length < s₁.ahead.length :=
    fun ts s₂ hts hne h₂ => ⟨⟨_, houter.append hts, h₁.trans h₂, hattrs.of_prefix⟩, h₂.fewer hne⟩
  refine from_current ?_
  split
  · next hkind =>
    refine proceeds_advance hs₁ (by rw [hkind]; nofun) fun s₂ h₂ _ => from_pure ?_
    exact hother _ s₂ (.doc hkind .nil) nofun h₂.passes
  · refine from_get (from_ite (fun hdoc => ?_) fun _ => from_ite (fun _ => ?_) fun _ => ?_)
    · refine (docAttribute_derived hs₁ hdoc).bind fun text s₂ ⟨ts, hts, hne, h₂⟩ => from_pure ?_
      exact hother ts s₂ (.of_docDerived hts) hne h₂
    · refine (settings_attribute p hs₁).bind fun p₂ s₂ ⟨ts, hts, h₂, hsame⟩ => from_pure ?_
      have hkept := hother ts s₂ (.of_attribute hts) (hts.ne_nil) h₂
      rwa [← hsame] at hkept
    · refine (verbatimAttribute_taken hs₁).bind fun text s₂ ⟨ts, hts, h₂, htext⟩ => from_pure ⟨?_, ?_⟩
      · rw [htext]
        exact ⟨_, houter.append (.of_attribute hts), h₁.trans h₂, hattrs.snoc hts⟩
      · exact h₂.fewer (hts.ne_nil)
  · next hdoc hpound => exact from_pure ⟨⟨outer, houter, h₁, hattrs⟩, hdoc, hpound⟩

/-! ## Headers -/

/-- What `generics` took, with the tokens after it. -/
def ParametersTaken (src : Source) (params after : List Token) (text : String) : Prop :=
  (params = [] ∧ text = "") ∨ ∃ inner, Angled inner params after ∧
    ((inner = [] ∧ text = "") ∨ (inner ≠ [] ∧ text = "<" ++
      String.intercalate ", " (Text.splitOutsideBrackets (src.textOf inner) (· == ',')) ++ ">"))

theorem generics_taken (hs : s.Ended) :
    Proceeds src s generics fun text s' => s.Leads s' ∧
      ∃ params, s.ahead = params ++ s'.ahead ∧ ParametersTaken src params s'.ahead text := by
  unfold generics
  refine proceeds_isNotAt (fun _ => from_pure ⟨Leads.refl s, [], rfl, Or.inl ⟨rfl, rfl⟩⟩) fun hopen => ?_
  refine proceeds_advance hs (by rw [hopen]; nofun) fun s₁ h₁ hs₁ => ?_
  refine proceeds_isAt_advance hs₁ nofun (fun closing s₂ h₂ _ hclosing => ?_) ?_
  · refine from_pure ⟨(h₁.moves.trans h₂.moves).toLeads, [s.current, closing], ?_, ?_⟩
    · rw [h₁.ahead, h₂.ahead]
      rfl
    · exact Or.inr ⟨[], ⟨s.current, closing, rfl, hopen, hclosing, Or.inl rfl⟩, Or.inl ⟨rfl, rfl⟩⟩
  · refine (textUpTo_taken _ _).bind fun text s₂ ⟨inner, h₂, htext⟩ => ?_
    refine proceeds_expect (h₂.moves.ended hs₁) nofun fun closing s₃ h₃ _ hclosing => ?_
    refine from_pure ⟨(h₁.moves.trans (h₂.moves.trans h₃.moves)).toLeads,
      s.current :: (inner ++ [closing]), ?_, ?_⟩
    · rw [h₁.ahead, h₂.ahead, h₃.ahead, List.cons_append, List.append_assoc]
      rfl
    · have hstopped := h₂.stopped
      rw [h₂.ahead, h₃.ahead] at hstopped
      refine Or.inr ⟨inner, ⟨s.current, closing, rfl, hopen, hclosing, Or.inr hstopped⟩, Or.inr ?_⟩
      exact ⟨h₂.nonempty, by rw [htext]⟩

/-- What `whereClause` took, with the tokens after it. -/
def ClauseTaken (src : Source) (ts after : List Token) (predicates : List String) : Prop :=
  predicates = [] ∨ ∃ word taken, ts = word :: (taken ++ after) ∧ taken ≠ [] ∧
    word.kind = .whereWord ∧
    Balanced.upTo [.leftBrace] 0 none (taken ++ after) = .stopped taken after ∧
    predicates = Text.splitOutsideBrackets (src.textOf taken) (· == ',')

theorem whereClause_taken (hs : s.Ended) :
    Proceeds src s whereClause fun predicates s' =>
      s.Leads s' ∧ ClauseTaken src s.ahead s'.ahead predicates := by
  unfold whereClause
  refine proceeds_isNotAt (fun _ => from_pure ⟨Leads.refl s, Or.inl rfl⟩) fun hword => ?_
  refine proceeds_advance hs (by rw [hword]; nofun) fun s₁ h₁ hs₁ => ?_
  refine proceeds_isAt (fun _ => from_pure ⟨h₁.moves.toLeads, Or.inl rfl⟩) ?_
  refine (textUpTo_taken _ _).bind fun text s₂ ⟨taken, h₂, htext⟩ => ?_
  refine from_ite (fun _ => from_fail_bind nofun) fun _ => ?_
  refine from_pure ⟨(h₁.moves.trans h₂.moves).toLeads, Or.inr ⟨s.current, taken, ?_⟩⟩
  have hstopped := h₂.stopped
  rw [h₂.ahead] at hstopped
  refine ⟨?_, h₂.nonempty, hword, hstopped, by rw [htext]⟩
  rw [h₁.ahead, h₂.ahead]

/-- The texts of a header come from its tokens. -/
structure HeaderCaptured (src : Source) (ts : List Token) (h : Header) : Prop where
  generics : GenericsCaptured src ts (some h.name.span) h.generics
  predicates : PredicatesCaptured src ts (some h.name.span) h.predicates

theorem header_captured (hs : s.Ended) :
    Proceeds src s header fun h s' => s.Leads s' ∧ HeaderCaptured src s.ahead h := by
  have hname : ∀ vis s₁, s.Leads s₁ → Proceeds src s₁ (do
      let name ← expect .identifier
      let generics ← generics
      let predicates ← whereClause
      return { vis, name, generics, predicates }) fun h s' =>
        s.Leads s' ∧ HeaderCaptured src s.ahead h := by
    intro vis s₁ h₁
    refine proceeds_expect (h₁.ended hs) nofun fun name s₂ h₂ hs₂ _ => ?_
    refine (generics_taken hs₂).bind fun text s₃ ⟨h₃, params, hparams, htext⟩ => ?_
    refine (whereClause_taken (h₃.ended hs₂)).bind fun predicates s₄ ⟨h₄, hclause⟩ => ?_
    refine from_pure ⟨h₁.trans (h₂.moves.toLeads.trans (h₃.trans h₄)), ?_, ?_⟩
    · obtain ⟨before, hbefore⟩ := h₁.ahead
      rcases htext with ⟨-, rfl⟩ | ⟨inner, hangled, ⟨-, rfl⟩ | ⟨hne, rfl⟩⟩
      · exact Or.inl rfl
      · exact Or.inl rfl
      · refine Or.inr ⟨inner, ⟨hne, before, name, params, s₃.ahead, ?_, rfl, hangled⟩, rfl⟩
        rw [← hbefore, h₂.ahead, hparams]
    · obtain ⟨before, hbefore⟩ := h₁.ahead
      rcases hclause with hnone | ⟨word, taken, hahead, hne, hword, hstopped, hpredicates⟩
      · exact Or.inl hnone
      · obtain ⟨brace, after, hbrace, hkind⟩ := (Balanced.Reaches.of_upTo hstopped).exists_stop
        have hangled : params = [] ∨ ∃ inner, Angled inner params s₃.ahead := by
          rcases htext with ⟨hnone, -⟩ | ⟨inner, hangled, -⟩
          · exact Or.inl hnone
          · exact Or.inr ⟨inner, hangled⟩
        rw [hahead] at hparams hangled
        refine Or.inr ⟨taken, ⟨hne, before, name, params, word, brace, after, _, ?_, rfl, hangled,
          hword, by rw [hbrace], List.mem_singleton.mp hkind, hbrace ▸ hstopped⟩, hpredicates⟩
        rw [← hbefore, h₂.ahead, hparams]
  unfold header
  refine (visibility_derived hs).bind fun vis s₁ ⟨_, _, hfront⟩ => ?_
  have h₁ : s.Leads s₁ := hfront.leads
  refine from_get (from_ite (fun hkeyword => ?_) fun _ => ?_)
  · have hidentifier : s₁.current.kind = .identifier := by
      rw [Bool.and_eq_true, Bool.and_eq_true] at hkeyword
      exact beq_iff_eq.mp hkeyword.1.1
    refine proceeds_advance (h₁.ended hs) (by rw [hidentifier]; nofun) fun s₂ h₂ _ => ?_
    exact hname vis s₂ (h₁.trans h₂.moves.toLeads)
  · exact hname vis s₁ h₁

/-! ## Statements -/

theorem nodeRef_captured (docs : List String) (hs : s.Ended) :
    Proceeds src s (nodeRef docs) fun r s' => s.Moves s' ∧ r.Captured src s.ahead := by
  unfold nodeRef
  refine from_current ?_
  by_cases hkind : s.current.kind = .identifier
  · simp only [hkind, bne_self_eq_false, Bool.false_eq_true, ↓reduceIte]
    refine proceeds_advance hs (by rw [hkind]; nofun) fun s₁ h₁ hs₁ => ?_
    split
    · exact proceeds_fail nofun
    · next name hname =>
      refine proceeds_isAt_advance hs₁ nofun (fun colon s₂ h₂ _ hcolon => ?_) ?_
      · have hty : Proceeds src s₂ (some <$> textUpTo typeStops "type") fun ty s' =>
            ∃ taken, Taken typeStops s₂ taken s' ∧ ty = some (src.textOf taken) :=
          from_map (textUpTo_taken _ _) fun text s₃ ⟨taken, h₃, htext⟩ => ⟨taken, h₃, by rw [htext]⟩
        refine hty.bind fun ty s₃ ⟨taken, h₃, htext⟩ => ?_
        refine from_pure ⟨h₁.moves.trans (h₂.moves.trans h₃.moves), fun ty' hty' => ?_⟩
        obtain ⟨stop, after, hstop, -⟩ := h₃.exists_stop
        have hstopped := h₃.stopped
        rw [h₃.ahead, hstop] at hstopped
        refine ⟨taken, ⟨h₃.nonempty, [], s.current, colon, stop, after, ?_, rfl, hcolon, hstopped⟩, ?_⟩
        · rw [h₁.ahead, h₂.ahead, h₃.ahead, hstop]
          rfl
        · exact Option.some.inj (hty'.symm.trans htext)
      · refine from_pure ⟨h₁.moves, ?_⟩
        rintro ty ⟨⟩
  · have hother : (s.current.kind != .identifier) = true := by simpa using hkind
    simp only [hother, ↓reduceIte]
    exact from_fail_bind nofun

theorem group_captured (docs : List String) (hs : s.Ended) :
    Proceeds src s (group docs) fun g s' => s.Moves s' ∧ ∀ r ∈ g, r.Captured src s.ahead := by
  unfold group
  refine (nodeRef_captured docs hs).bind fun first s₁ ⟨h₁, hfirst⟩ => ?_
  refine from_rounds (fun g s' => s.Moves s' ∧ ∀ r ∈ g, r.Captured src s.ahead) ?_
    ⟨h₁, by simpa using hfirst⟩
  rintro members s₂ ⟨h₂, hmembers⟩
  refine proceeds_isAt_advance (h₂.ended hs) nofun (fun _ s₃ h₃ hs₃ _ => ?_)
    (from_pure ⟨h₂, hmembers⟩)
  refine (nodeRef_captured [] hs₃).bind fun r s₄ ⟨h₄, hr⟩ => ?_
  refine from_pure ⟨⟨h₂.trans (h₃.moves.trans h₄), fun r' hr' => ?_⟩, (h₃.moves.trans h₄).fewer⟩
  rcases List.mem_append.mp hr' with hr' | hr'
  · exact hmembers r' hr'
  · rw [List.mem_singleton.mp hr']
    exact hr.of_suffix (h₂.trans h₃.moves).ahead

theorem chainRest_captured (hs : s.Ended) :
    Proceeds src s chainRest fun rest s' => s.Leads s' ∧
      ∀ step ∈ rest, ∀ r ∈ step.2, r.Captured src s.ahead := by
  unfold chainRest
  refine from_rounds (fun rest s' => s.Leads s' ∧
    ∀ step ∈ rest, ∀ r ∈ step.2, r.Captured src s.ahead) ?_ ⟨Leads.refl s, nofun⟩
  rintro rest s₁ ⟨h₁, hrest⟩
  refine proceeds_isAt (fun _ => from_pure ⟨h₁, hrest⟩) ?_
  refine (arrow_derived (h₁.ended hs)).bind fun arrow s₂ ⟨_, harrow, hpasses⟩ => from_current ?_
  have h₂ : s₁.Moves s₂ := hpasses.moves harrow.ne_nil
  have hs₂ : s₂.Ended := (h₁.trans h₂.toLeads).ended hs
  refine (group_captured [] hs₂).bind fun targets s₃ ⟨h₃, htargets⟩ => ?_
  refine from_ite (fun _ => from_fail_bind nofun) fun _ => from_pure ⟨⟨?_, ?_⟩, (h₂.trans h₃).fewer⟩
  · exact h₁.trans (h₂.trans h₃).toLeads
  · intro step hstep
    rcases List.mem_append.mp hstep with hstep | hstep
    · exact hrest step hstep
    · rw [List.mem_singleton.mp hstep]
      exact captured_refs_of_suffix htargets (h₁.trans h₂.toLeads).ahead

theorem statement_captured (hs : s.Ended) :
    Proceeds src s statement fun st s' => s.Moves s' ∧ st.Captured src s.ahead := by
  unfold statement
  refine (docs_derived hs).bind fun docs s₁ ⟨_, _, _, _, hdocs⟩ => ?_
  have h₁ : s.Leads s₁ := hdocs.leads
  refine (group_captured docs (h₁.ended hs)).bind fun first s₂ ⟨h₂, hfirst⟩ => ?_
  have hmoves : s.Moves s₂ := h₁.trans_moves h₂
  have hs₂ : s₂.Ended := hmoves.ended hs
  have hrefs : ∀ r ∈ first, r.Captured src s.ahead := captured_refs_of_suffix hfirst h₁.ahead
  have hchain : Proceeds src s₂ (do
      let rest ← chainRest
      if rest.isEmpty then fail (← current) .loneGroup
      let _ ← expect .semicolon
      return Statement.chain { docs, first := first.map ({ · with docs := [] }), rest })
      fun st s' => s.Moves s' ∧ st.Captured src s.ahead := by
    refine (chainRest_captured hs₂).bind fun rest s₃ ⟨h₃, hrest⟩ => ?_
    have h : s.Moves s₃ := hmoves.trans_leads h₃
    refine from_ite (fun _ => from_current (from_fail_bind nofun)) fun _ => ?_
    refine proceeds_expect (h.ended hs) nofun fun _ s₄ h₄ _ _ => from_pure ⟨h.trans h₄.moves, ?_⟩
    intro r hr
    obtain ⟨group, hgroup, hr⟩ := List.mem_flatten.mp hr
    rcases List.mem_cons.mp hgroup with rfl | hgroup
    · obtain ⟨r', hr', rfl⟩ := List.mem_map.mp hr
      exact (hrefs r' hr').withDocs []
    · obtain ⟨step, hstep, rfl⟩ := List.mem_map.mp hgroup
      exact (hrest step hstep r hr).of_suffix hmoves.ahead
  refine from_isAt (fun hkind => from_ite (fun _ => ?_) fun _ => hchain) fun _ => ?_
  · cases first with
    | nil => exact hchain
    | cons ref members =>
      refine proceeds_advance hs₂ (by rw [hkind]; nofun) fun s₃ h₃ _ => ?_
      refine from_pure ⟨hmoves.trans h₃.moves, fun r hr => ?_⟩
      rw [List.mem_singleton.mp hr]
      exact hrefs ref (List.mem_cons_self ..)
  · exact from_ite (fun h => Bool.noConfusion h) fun _ => hchain

theorem statements_captured (terminator : TokenKind) (hs : s.Ended) :
    Proceeds src s (statements terminator) fun sts s' => s.Leads s' ∧
      ∀ st ∈ sts, st.Captured src s.ahead := by
  unfold statements
  refine from_rounds (fun sts s' => s.Leads s' ∧ ∀ st ∈ sts, st.Captured src s.ahead) ?_
    ⟨Leads.refl s, nofun⟩
  rintro sts s₁ ⟨h₁, hsts⟩
  refine proceeds_isAt (fun _ => from_pure ⟨h₁, hsts⟩) (from_current ?_)
  refine from_ite (fun _ => from_fail_bind nofun) fun _ => ?_
  refine (statement_captured (h₁.ended hs)).bind fun st s₂ ⟨h₂, hst⟩ => ?_
  refine from_pure ⟨⟨h₁.trans h₂.toLeads, fun st' hst' => ?_⟩, h₂.fewer⟩
  rcases List.mem_append.mp hst' with hst' | hst'
  · exact hsts st' hst'
  · rw [List.mem_singleton.mp hst']
    exact captured_refs_of_suffix hst h₁.ahead

/-! ## Documents -/

theorem bareDocument_captured (hs : s.Ended) :
    Proceeds src s bareDocument fun d _ => d.Captured src s.ahead := by
  unfold bareDocument
  refine from_current ((statements_captured _ hs).bind fun sts s₁ ⟨_, hsts⟩ => from_pure ?_)
  exact ⟨hsts, ⟨[], rfl, List.nil_sublist _, nofun⟩, Or.inl rfl, Or.inl rfl⟩

theorem headedDocument_captured (hs : s.Ended) :
    Proceeds src s headedDocument fun d _ => d.Captured src s.ahead := by
  unfold headedDocument
  refine (preamble_captured hs).bind fun p s₁ ⟨⟨before, _, hbefore, hattrs⟩, _⟩ => ?_
  have h₁ : s.Leads s₁ := hbefore.leads
  refine (header_captured (h₁.ended hs)).bind fun h s₂ ⟨h₂, hheader⟩ => ?_
  have hs₂ : s₂.Ended := (h₁.trans h₂).ended hs
  refine proceeds_expect hs₂ nofun fun _ s₃ h₃ hs₃ _ => ?_
  refine (statements_captured _ hs₃).bind fun sts s₄ ⟨h₄, hsts⟩ => ?_
  refine proceeds_expect (h₄.ended hs₃) nofun fun _ s₅ h₅ _ _ => ?_
  refine proceeds_expect_endOfInput.bind fun _ s₆ _ => from_pure ?_
  have hsuffix : s₃.ahead <:+ s.ahead := (h₁.trans (h₂.trans h₃.moves.toLeads)).ahead
  refine ⟨fun st hst => captured_refs_of_suffix (hsts st hst) hsuffix, ?_, ?_, ?_⟩
  · rw [hbefore.ahead]
    exact hattrs.of_prefix
  · exact hheader.generics.of_suffix h₁.ahead
  · exact hheader.predicates.of_suffix h₁.ahead

theorem document_captured (hs : s.Ended) :
    Proceeds src s document fun d _ => d.Captured src s.ahead := by
  unfold document
  exact from_get (from_ite (fun _ => headedDocument_captured hs) fun _ => bareDocument_captured hs)

end Parser

/-- The last of the tokens of a source is the mark of the end. -/
theorem Source.ended_ofTokens {src : Source} {tokens : List Token} (h : src.tokenize = .ok tokens) :
    (TokenStream.ofTokens tokens).Ended := by
  obtain ⟨ps, _, -, -, -, mark, hmark, rfl⟩ := reads_of_tokenize h
  unfold TokenStream.Ended TokenStream.ofTokens
  rw [List.getLast?_concat]
  exact hmark

theorem Source.parse_of_tokenize {src : Source} {tokens : List Token}
    (h : src.tokenize = .ok tokens) : src.parse = Parser.document.run src tokens := by
  rw [parse, h]
  rfl

/-- **Capture.** All texts of a document that is read come from the tokens of its source. -/
theorem Source.parse_captured {src : Source} {tokens : List Token} {d : Document}
    (htokens : src.tokenize = .ok tokens) (h : src.parse = .ok d) :
    d.Captured src tokens.dropLast := by
  have hdocument : Parser.Proceeds src (TokenStream.ofTokens tokens) Parser.document fun d _ =>
      d.Captured src tokens.dropLast := Parser.document_captured (ended_ofTokens htokens)
  unfold Parser.Proceeds Parser.From at hdocument
  rw [parse_of_tokenize htokens] at h
  unfold Parser.run at h
  split at h
  · next d' s hrun =>
    cases h
    rw [hrun] at hdocument
    exact hdocument
  · cases h

/-- **Progress.** Every round of the parser takes a token, so it never complains that it made none. -/
theorem Source.parse_ne_stalled {src : Source} {e : ParseError} (h : src.parse = .error e) :
    e.cause ≠ .stalled := by
  cases htokens : src.tokenize with
  | error e' =>
    rw [parse, htokens] at h
    cases h
    exact tokenize_ne_stalled htokens
  | ok tokens =>
    have hdocument : Parser.Proceeds src (TokenStream.ofTokens tokens) Parser.document fun d _ =>
        d.Captured src tokens.dropLast := Parser.document_captured (ended_ofTokens htokens)
    unfold Parser.Proceeds Parser.From at hdocument
    rw [parse_of_tokenize htokens] at h
    unfold Parser.run at h
    split at h
    · cases h
    · next e' s hrun =>
      cases h
      rw [hrun] at hdocument
      exact hdocument

end Typestate
