import Typestate.Proofs.Grammar.RoundTrip

/-!
Where a payload type ends. Tokens whose brackets close one another are taken together, and the type ends
at the arrow behind them unless its last token is a closing parenthesis. Then the arrow belongs to the type,
whatever stands in front of the parenthesis, and `X: (u8) -> Y;` says nothing of a node `Y`
(`Source.parse_typeEnd`).
-/

namespace Typestate

/-! ## Enclosed tokens -/

/-- The brackets of some tokens close one another. -/
structure Matched (kinds : List TokenKind) : Prop where
  balanced : kinds.countP TokenKind.isClosing = kinds.countP TokenKind.isOpening
  closing : ∀ front, front <+: kinds → front.countP TokenKind.isClosing ≤ front.countP TokenKind.isOpening

instance (kinds : List TokenKind) : Decidable (Matched kinds) :=
  decidable_of_iff (kinds.countP TokenKind.isClosing = kinds.countP TokenKind.isOpening ∧
      ∀ front ∈ kinds.inits, front.countP TokenKind.isClosing ≤ front.countP TokenKind.isOpening)
    ⟨fun ⟨hbalanced, hclosing⟩ => ⟨hbalanced, fun front hfront =>
        hclosing front ((List.mem_inits ..).mpr hfront)⟩,
      fun ⟨hbalanced, hclosing⟩ => ⟨hbalanced, fun front hfront =>
        hclosing front ((List.mem_inits ..).mp hfront)⟩⟩

/-- What stands before some part of a list with one more element is all of it, or stands before the rest. -/
theorem split_concat {α : Type} {front back kinds : List α} {kind last : α}
    (h : kinds ++ [last] = front ++ kind :: back) :
    kinds = front ∧ last = kind ∨ ∃ back', kinds = front ++ kind :: back' := by
  rcases List.eq_nil_or_concat back with rfl | ⟨back, last', rfl⟩
  · obtain ⟨hfront, hlast⟩ := List.append_inj' h rfl
    exact Or.inl ⟨hfront, List.singleton_inj.mp hlast⟩
  · rw [List.concat_eq_append, ← List.cons_append, ← List.append_assoc] at h
    exact Or.inr ⟨back, (List.append_inj' h rfl).1⟩

/-- One more token that is no bracket leaves tokens enclosed, if it is no stop, or an arrow directly behind a
closing parenthesis. -/
theorem Enclosed.concat {kinds : List TokenKind} {kind : TokenKind} (h : Enclosed kinds)
    (hopening : kind.isOpening = false) (hclosing : kind.isClosing = false)
    (hstop : kind ∈ Parser.typeStops → kind = .arrow ∧ kinds.getLast? = some .rightParen) :
    Enclosed (kinds ++ [kind]) where
  nonempty := by simp
  balanced := by simp [List.countP_append, hopening, hclosing, h.balanced]
  closing front hfront := by
    rcases List.prefix_concat_iff.mp hfront with rfl | hfront
    · simp [List.countP_append, hopening, hclosing, h.balanced]
    · exact h.closing front hfront
  stop front kind' back heq hmem hcount := by
    rcases split_concat heq with ⟨rfl, rfl⟩ | ⟨back', rfl⟩
    · exact hstop hmem
    · exact h.stop front kind' back' rfl hmem hcount

theorem countP_parenthesis_opening (kinds : List TokenKind) :
    (.leftParen :: kinds).countP TokenKind.isOpening = kinds.countP TokenKind.isOpening + 1 :=
  List.countP_cons_of_pos rfl

theorem countP_parenthesis_closing (kinds : List TokenKind) :
    (.leftParen :: kinds).countP TokenKind.isClosing = kinds.countP TokenKind.isClosing :=
  List.countP_cons_of_neg Bool.false_ne_true

/-- What stands in parentheses is enclosed if its brackets close one another. -/
theorem Matched.enclosed {inner : List TokenKind} (h : Matched inner) :
    Enclosed (.leftParen :: (inner ++ [.rightParen])) where
  nonempty := List.cons_ne_nil _ _
  balanced := by
    rw [countP_parenthesis_closing, countP_parenthesis_opening]
    simp [List.countP_append, TokenKind.isClosing, TokenKind.isOpening, h.balanced]
  closing front hfront := by
    rcases List.prefix_cons_iff.mp hfront with rfl | ⟨front, rfl, hbehind⟩
    · exact Nat.le_refl 0
    · rw [countP_parenthesis_closing, countP_parenthesis_opening]
      rcases List.prefix_concat_iff.mp hbehind with rfl | hinner
      · simp [List.countP_append, TokenKind.isClosing, TokenKind.isOpening, h.balanced]
      · exact Nat.le_succ_of_le (h.closing front hinner)
  stop front kind back heq hmem hcount := by
    exfalso
    cases front with
    | nil =>
      cases heq
      exact absurd hmem (by decide)
    | cons first front =>
      obtain ⟨rfl, hinner⟩ := List.cons.inj heq
      rcases split_concat hinner with ⟨-, rfl⟩ | ⟨back', rfl⟩
      · exact absurd hmem (by decide)
      · -- Behind the first parenthesis more is opened than closed.
        have hclosing := h.closing front (List.prefix_append ..)
        rw [countP_parenthesis_closing, countP_parenthesis_opening] at hcount
        omega

namespace Parser

variable {src : Source} {rest : List Token} {last : Token}

/-! ## Taking a type -/

/-- A reader that finds one thing gives it. -/
theorem Finds.eq_ok {α : Type} {p : Parser α} {s s' : TokenStream} {a : α}
    (h : Finds src s p fun a' s₁ => a' = a ∧ s₁ = s') : p src s = .ok a s' := by
  unfold Finds From at h
  split at h
  · next hrun =>
    obtain ⟨rfl, rfl⟩ := h
    exact hrun
  · exact h.elim

theorem From.of_ok {α : Type} {may : ParseCause → Prop} {p : Parser α} {s s' : TokenStream} {a : α}
    {post : α → TokenStream → Prop} (h : From may src s p post) (hrun : p src s = .ok a s') :
    post a s' := by
  unfold From at h
  rwa [hrun] at h

/-- The type of a node has all tokens that are enclosed, and perhaps more. -/
theorem nodeRef_enclosed {lines : List String} {name : String} {t colon : Token} {taken behind : List Token}
    (ht : t.kind = .identifier) (hname : Identifier.canonical t.value = .ok name)
    (hcolon : colon.kind = .colon) (htaken : Enclosed (taken.map Token.kind)) :
    Proceeds src ⟨t :: colon :: (taken ++ behind), last⟩ (nodeRef lines) fun r s' =>
      s'.last = last ∧ ∃ more, behind = more ++ s'.ahead ∧
        r = { name, ty := some (src.textOf (taken ++ more)), docs := lines, span := some t.span } := by
  refine finds_nodeRef ht hname (finds_isAt hcolon (finds_advance ?_))
  have hty : Proceeds src ⟨taken ++ behind, last⟩ (some <$> textUpTo typeStops "type") fun ty s' =>
      s'.last = last ∧ ∃ more, behind = more ++ s'.ahead ∧ ty = some (src.textOf (taken ++ more)) := by
    refine from_map (textUpTo_taken _ _) ?_
    rintro _ s' ⟨taken', htaken', rfl⟩
    have hstopped := htaken'.stopped
    rw [upTo_append_of_enclosed htaken] at hstopped
    obtain ⟨more, hmore, rfl⟩ := Balanced.exists_of_foldr_prepend hstopped
    exact ⟨htaken'.last, more, (Balanced.upTo_eq_stopped_iff.mp hmore).1, rfl⟩
  refine hty.bind ?_
  rintro _ s' ⟨hlast, more, hmore, rfl⟩
  exact from_pure ⟨hlast, more, hmore, rfl⟩

/-! ## Statements of one arrow -/

/-- A statement without documentation starts with a name. -/
theorem finds_noDocs {t : Token} (ht : t.kind = .identifier) :
    Finds src ⟨t :: rest, last⟩ docs fun found s' => found = [] ∧ s' = ⟨t :: rest, last⟩ := by
  have hnone : ([] : List Token).map Token.content = ([] : List String).map fun d => (.doc, d.toList) := rfl
  exact finds_docs hnone nofun (current_ne ht nofun) (current_ne ht nofun)

/-- A plain arrow from a node to one without a type. -/
theorem finds_hop {source : NodeRef} {next : String} {t arrow y stop : Token} {toks : List Token}
    (ht : t.kind = .identifier) (harrow : arrow.kind = .arrow) (hy : y.kind = .identifier)
    (hnext : Identifier.canonical y.value = .ok next) (hstop : stop.kind = .semicolon)
    (hdocs : source.docs = [])
    (hsource : Finds src ⟨t :: toks, last⟩ (nodeRef []) fun r s' =>
      r = source ∧ s' = ⟨arrow :: y :: stop :: rest, last⟩) :
    Finds src ⟨t :: toks, last⟩ statement fun found s' => found = .chain {
        first := [source]
        rest := [({ span := some arrow.span }, [{ name := next, span := some y.span }])] } ∧
      s' = ⟨rest, last⟩ := by
  have hread : Finds src ⟨arrow :: y :: stop :: rest, last⟩ Parser.arrow fun a s' =>
      a = { span := some arrow.span } ∧ s' = ⟨y :: stop :: rest, last⟩ := by
    unfold Parser.arrow
    refine from_current ?_
    rw [show (TokenStream.mk (arrow :: y :: stop :: rest) last).current.kind = .arrow from harrow]
    exact finds_advance (from_pure ⟨rfl, rfl⟩)
  have htarget : Finds src ⟨y :: stop :: rest, last⟩ group fun g s' =>
      (∃ r, r = { name := next, span := some y.span } ∧ g = [r]) ∧ s' = ⟨stop :: rest, last⟩ :=
    finds_group_single (by rw [hstop]; nofun) (finds_nodeRef_untyped hy hnext (current_ne hstop nofun))
  have hrest : Finds src ⟨arrow :: y :: stop :: rest, last⟩ chainRest fun steps s' =>
      steps = [({ span := some arrow.span }, [{ name := next, span := some y.span }])] ∧
        s' = ⟨stop :: rest, last⟩ := by
    unfold chainRest
    refine from_rounds_step (finds_isNotAt (current_ne harrow nofun) (hread.bind ?_))
    rintro _ _ ⟨rfl, rfl⟩
    refine from_current (htarget.bind ?_)
    rintro _ _ ⟨⟨_, rfl, rfl⟩, rfl⟩
    refine from_ite (fun hnamed => by cases hnamed) fun _ => from_pure ⟨?_, from_rounds_step ?_⟩
    · simp only [List.length_cons]
      omega
    · exact finds_isAt hstop (from_pure ⟨rfl, rfl⟩)
  unfold statement
  refine (finds_noDocs ht).bind ?_
  rintro _ _ ⟨rfl, rfl⟩
  refine (finds_group_single (by rw [harrow]; nofun) hsource).bind ?_
  rintro _ _ ⟨⟨_, rfl, rfl⟩, rfl⟩
  refine finds_isNotAt (current_ne harrow nofun) (from_ite (fun hnode => by cases hnode) fun _ => ?_)
  refine hrest.bind ?_
  rintro _ _ ⟨rfl, rfl⟩
  refine from_ite (fun hempty => by cases hempty) fun _ => finds_expect hstop (from_pure ⟨?_, rfl⟩)
  rw [List.map_singleton, ← hdocs]

/-- Tokens that start with a name and a colon are bare statements; here they are one. -/
theorem finds_document_single {st : Statement} {t colon : Token} {toks : List Token}
    (ht : t.kind = .identifier) (hcolon : colon.kind = .colon) (hlast : last.kind = .endOfInput)
    (h : Finds src ⟨t :: colon :: toks, last⟩ statement fun found s' => found = st ∧ s' = ⟨[], last⟩) :
    Finds src ⟨t :: colon :: toks, last⟩ document fun d _ =>
      d = { statements := [st], span := some t.span } := by
  have hafter : afterPreamble none (t :: colon :: toks) = t :: colon :: toks :=
    afterPreamble_docs (List.forall_mem_nil _) ht
  have hheader : (⟨t :: colon :: toks, last⟩ : TokenStream).startsHeader = false := by
    rw [startsHeader_eq hafter ht, hcolon]
    simp
  have hstatements : Finds src ⟨t :: colon :: toks, last⟩ (statements .endOfInput) fun found s' =>
      found = [st] := by
    unfold statements
    refine from_rounds_step (finds_isNotAt (current_ne ht nofun) (from_current (from_ite ?_ fun _ => ?_)))
    · intro hend
      exact absurd (ht.symm.trans (beq_iff_eq.mp hend)) nofun
    · refine h.bind ?_
      rintro _ _ ⟨rfl, rfl⟩
      refine from_pure ⟨Nat.succ_pos _, from_rounds_step ?_⟩
      exact finds_isAt hlast (from_pure rfl)
  unfold document
  refine from_get ?_
  rw [hheader]
  unfold bareDocument
  refine from_current (hstatements.bind ?_)
  rintro _ _ rfl
  exact from_pure rfl

end Parser

/-! ## Texts -/

/-- A name, a colon, the tokens of a type, and a plain arrow. -/
structure TypedHop (name : String) (x colon : Token) (taken : List Token) (arrow : Token) : Prop where
  identifier : x.kind = .identifier
  canonical : Identifier.canonical x.value = .ok name
  colon : colon.kind = .colon
  ty : Enclosed (taken.map Token.kind)
  arrow : arrow.kind = .arrow

namespace TypedHop

variable {src : Source} {name : String} {x colon arrow : Token} {taken : List Token} {last : Token}

/-- An arrow that does not follow a closing parenthesis ends the type. -/
theorem finds_type (h : TypedHop name x colon taken arrow)
    (hparen : (taken.map Token.kind).getLast? ≠ some .rightParen) (lines : List String)
    (rest : List Token) :
    Parser.Finds src ⟨x :: colon :: (taken ++ arrow :: rest), last⟩ (Parser.nodeRef lines) fun r s' =>
      r = { name, ty := some (src.textOf taken), docs := lines, span := some x.span } ∧
        s' = ⟨arrow :: rest, last⟩ := by
  have hstop : arrow.kind ∈ Parser.typeStops := by
    rw [h.arrow]
    decide
  exact Parser.finds_nodeRef_stopped h.identifier h.canonical h.colon (Parser.ne_nil_of_enclosed h.ty)
    (Parser.upTo_of_enclosed h.ty hstop fun _ => hparen)

/-- An arrow that follows a closing parenthesis is enclosed with the tokens in front of it. -/
theorem enclosed_arrow (h : TypedHop name x colon taken arrow)
    (hparen : (taken.map Token.kind).getLast? = some .rightParen) :
    Enclosed ((taken ++ [arrow]).map Token.kind) := by
  rw [List.map_append, List.map_singleton, h.arrow]
  exact h.ty.concat rfl rfl fun _ => ⟨rfl, hparen⟩

/-- A name behind such an arrow belongs to the type as well. -/
theorem enclosed_next (h : TypedHop name x colon taken arrow) {y : Token} (hy : y.kind = .identifier)
    (hparen : (taken.map Token.kind).getLast? = some .rightParen) :
    Enclosed ((taken ++ [arrow, y]).map Token.kind) := by
  have hnext : Enclosed ((taken ++ [arrow]).map Token.kind ++ [.identifier]) :=
    (h.enclosed_arrow hparen).concat rfl rfl fun hstop => absurd hstop (by decide)
  rw [← hy, ← List.map_singleton, ← List.map_append, List.append_assoc] at hnext
  exact hnext

/-- What the whole text says, whose tokens are a name with its type, the arrow, a name and a semicolon. -/
theorem parse_eq (h : TypedHop name x colon taken arrow) {next : String} {y semicolon mark : Token}
    (hy : y.kind = .identifier) (hnext : Identifier.canonical y.value = .ok next)
    (hsemicolon : semicolon.kind = .semicolon)
    (htokens : src.tokenize = .ok (x :: colon :: (taken ++ [arrow, y, semicolon, mark]))) :
    src.parse = .ok {
      statements :=
        if (taken.map Token.kind).getLast? = some .rightParen then
          [.node { name, ty := some (src.textOf (taken ++ [arrow, y])), span := some x.span }]
        else
          [.chain {
            first := [{ name, ty := some (src.textOf taken), span := some x.span }]
            rest := [({ span := some arrow.span }, [{ name := next, span := some y.span }])] }]
      span := some x.span } := by
  have hsplit : x :: colon :: (taken ++ [arrow, y, semicolon, mark]) =
      x :: colon :: (taken ++ [arrow, y, semicolon]) ++ [mark] := by simp
  have hmark : mark.kind = .endOfInput := by
    have hended := Source.ended_ofTokens htokens
    rw [hsplit, TokenStream.Ended, TokenStream.ofTokens, List.getLast?_concat] at hended
    exact hended
  rw [Source.parse_of_tokenize htokens, hsplit]
  have hrun : ∀ {st : Statement}, Parser.Finds src ⟨x :: colon :: (taken ++ [arrow, y, semicolon]), mark⟩
      Parser.statement (fun found s' => found = st ∧ s' = ⟨[], mark⟩) →
      Parser.document.run src (x :: colon :: (taken ++ [arrow, y, semicolon]) ++ [mark]) =
        .ok { statements := [st], span := some x.span } := by
    intro st hst
    obtain ⟨d, -, hd, rfl⟩ :=
      (Parser.finds_document_single h.identifier h.colon hmark hst).exists_run
    exact hd
  split
  · next hparen =>
    have hty := h.enclosed_next hy hparen
    have hstop : semicolon.kind ∈ Parser.typeStops := by
      rw [hsemicolon]
      decide
    have href : Parser.Finds src ⟨x :: colon :: (taken ++ [arrow, y] ++ [semicolon]), mark⟩
        (Parser.nodeRef []) fun r s' =>
          r = { name, ty := some (src.textOf (taken ++ [arrow, y])), span := some x.span } ∧
            s' = ⟨[semicolon], mark⟩ :=
      Parser.finds_nodeRef_stopped h.identifier h.canonical h.colon (Parser.ne_nil_of_enclosed hty)
        (Parser.upTo_of_enclosed hty hstop fun harrow =>
          absurd (hsemicolon.symm.trans harrow) (by decide))
    rw [List.append_assoc] at href
    refine hrun ((Parser.finds_node hsemicolon (Parser.finds_noDocs h.identifier) href).weaken ?_)
    rintro _ _ ⟨⟨_, rfl, rfl⟩, rfl⟩
    exact ⟨rfl, rfl⟩
  · next hparen =>
    exact hrun (Parser.finds_hop h.identifier h.arrow hy hnext hsemicolon rfl
      (h.finds_type hparen [] [y, semicolon]))

end TypedHop

/-- **Ends of types.** A type that stands in front of a plain arrow ends there exactly if its last token is
no closing parenthesis. Otherwise the arrow and what follows belong to it, so that the text says a node and
no arrow. All types in parentheses are among these. -/
theorem Source.parse_typeEnd (src : Source) {name : String} {x colon arrow : Token} {taken : List Token}
    (h : TypedHop name x colon taken arrow) :
    (∀ lines rest last, (taken.map Token.kind).getLast? ≠ some .rightParen →
      Parser.nodeRef lines src ⟨x :: colon :: (taken ++ arrow :: rest), last⟩ =
        .ok { name, ty := some (src.textOf taken), docs := lines, span := some x.span }
          ⟨arrow :: rest, last⟩) ∧
    (∀ lines rest last r s', (taken.map Token.kind).getLast? = some .rightParen →
      Parser.nodeRef lines src ⟨x :: colon :: (taken ++ arrow :: rest), last⟩ = .ok r s' →
        ∃ more, rest = more ++ s'.ahead ∧ r.ty = some (src.textOf (taken ++ arrow :: more))) ∧
    (∀ next y semicolon mark, y.kind = .identifier → Identifier.canonical y.value = .ok next →
      semicolon.kind = .semicolon →
      src.tokenize = .ok (x :: colon :: (taken ++ [arrow, y, semicolon, mark])) →
        src.parse = .ok {
          statements :=
            if (taken.map Token.kind).getLast? = some .rightParen then
              [.node { name, ty := some (src.textOf (taken ++ [arrow, y])), span := some x.span }]
            else
              [.chain {
                first := [{ name, ty := some (src.textOf taken), span := some x.span }]
                rest := [({ span := some arrow.span }, [{ name := next, span := some y.span }])] }]
          span := some x.span }) ∧
    ∀ inner, Matched inner → Enclosed (.leftParen :: (inner ++ [.rightParen])) := by
  refine ⟨fun lines rest last hparen => (h.finds_type hparen lines rest).eq_ok, ?_, ?_,
    fun inner => Matched.enclosed⟩
  · intro lines rest last r s' hparen hrun
    have henclosed := h.enclosed_arrow hparen
    rw [List.append_cons] at hrun
    obtain ⟨-, more, hmore, rfl⟩ :=
      (Parser.nodeRef_enclosed h.identifier h.canonical h.colon henclosed).of_ok hrun
    exact ⟨more, hmore, by rw [List.append_assoc]; rfl⟩
  · intro next y semicolon mark
    exact h.parse_eq

/-- A type with an arrow of its own in front of the one that ends it. -/
def rotor : Source := { text := "X: fn(u8) -> [u8; 2] -> Y;" }

def rotorType : List Token :=
  [⟨.identifier, "fn", 1, 4, 3, 5⟩, ⟨.leftParen, "(", 1, 6, 5, 6⟩, ⟨.identifier, "u8", 1, 7, 6, 8⟩,
    ⟨.rightParen, ")", 1, 9, 8, 9⟩, ⟨.arrow, "->", 1, 11, 10, 12⟩, ⟨.leftBracket, "[", 1, 14, 13, 14⟩,
    ⟨.identifier, "u8", 1, 15, 14, 16⟩, ⟨.semicolon, ";", 1, 17, 16, 17⟩, ⟨.number, "2", 1, 19, 18, 19⟩,
    ⟨.rightBracket, "]", 1, 20, 19, 20⟩]

theorem rotor_typeEnd :
    TypedHop "X" ⟨.identifier, "X", 1, 1, 0, 1⟩ ⟨.colon, ":", 1, 2, 1, 2⟩ rotorType
      ⟨.arrow, "->", 1, 22, 21, 23⟩ ∧
    rotor.parse = .ok {
      statements := [.chain {
        first := [{ name := "X", ty := some "fn(u8) -> [u8; 2]", span := some ⟨1, 1, 1⟩ }]
        rest := [({ span := some ⟨1, 22, 2⟩ }, [{ name := "Y", span := some ⟨1, 25, 1⟩ }])] }]
      span := some ⟨1, 1, 1⟩ } := by
  have h : TypedHop "X" ⟨.identifier, "X", 1, 1, 0, 1⟩ ⟨.colon, ":", 1, 2, 1, 2⟩ rotorType
      ⟨.arrow, "->", 1, 22, 21, 23⟩ := ⟨rfl, by decide +kernel, rfl, by decide +kernel, rfl⟩
  have hparse := (Source.parse_typeEnd rotor h).2.2.1 "Y" ⟨.identifier, "Y", 1, 25, 24, 25⟩
    ⟨.semicolon, ";", 1, 26, 25, 26⟩ ⟨.endOfInput, "", 1, 27, 26, 26⟩ rfl (by decide +kernel) rfl
    (by decide +kernel)
  have htext : rotor.textOf rotorType = "fn(u8) -> [u8; 2]" := by decide +kernel
  rw [if_neg (by decide), htext] at hparse
  exact ⟨h, hparse⟩

/-- In front of an arrow, a type in parentheses takes the arrow and the name behind it. -/
theorem unitHop_parse : ({ text := "X: () -> Y;" } : Source).parse = .ok {
    statements := [.node { name := "X", ty := some "() -> Y", span := some ⟨1, 1, 1⟩ }]
    span := some ⟨1, 1, 1⟩ } := by
  decide +kernel

end Typestate
