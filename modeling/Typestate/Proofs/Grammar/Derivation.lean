import Typestate.Proofs.Grammar.TypeEnd

/-!
The grammar of statements, as a relation between tokens and what they say. An arrow is read exactly if the
tokens ahead start with one, and a statement that is read is derived from exactly the tokens that were
taken (`Parser.statement_derived`).
-/

namespace Typestate

/-! ## The grammar -/

/-- A node reference: a name, and perhaps a colon and a type, outside of whose brackets nothing ends it. -/
inductive RefDerived (src : Source) (docs : List String) : List Token → NodeRef → Prop
  | bare {t : Token} {name : String} (hkind : t.kind = .identifier)
    (hname : Identifier.canonical t.value = .ok name) :
    RefDerived src docs [t] { name, docs, span := some t.span }
  | typed {t colon : Token} {taken : List Token} {name : String} (hkind : t.kind = .identifier)
    (hname : Identifier.canonical t.value = .ok name) (hcolon : colon.kind = .colon)
    (htaken : Enclosed (taken.map Token.kind)) :
    RefDerived src docs (t :: colon :: taken)
      { name, ty := some (src.textOf taken), docs, span := some t.span }

/-- A further reference of a group, behind its ampersand. -/
inductive FurtherDerived (src : Source) : List Token → NodeRef → Prop
  | mk {ampersand : Token} {ts : List Token} {r : NodeRef} (hkind : ampersand.kind = .ampersand)
    (href : RefDerived src [] ts r) : FurtherDerived src (ampersand :: ts) r

/-- A group. Documentation belongs to its first reference. -/
inductive GroupDerived (src : Source) (docs : List String) : List Token → NodeGroup → Prop
  | mk {ts more : List Token} {r : NodeRef} {rs : List NodeRef} (hfirst : RefDerived src docs ts r)
    (hmore : Many (FurtherDerived src) more rs) : GroupDerived src docs (ts ++ more) (r :: rs)

/-- An arrow and the group behind it, which is one reference if the arrow has a name. -/
inductive StepDerived (src : Source) : List Token → Arrow × NodeGroup → Prop
  | mk {ts more : List Token} {a : Arrow} {g : NodeGroup} (harrow : ArrowDerived ts a)
    (hgroup : GroupDerived src [] more g) (hnamed : a.isNamed = true → g.isMany = false) :
    StepDerived src (ts ++ more) (a, g)

/-- A statement with its semicolon: a documented node, or documentation, a group, and one or more steps. -/
inductive StatementDerived (src : Source) : List Token → Statement → Prop
  | node {docs ref : List Token} {texts : List String} {r : NodeRef} {semicolon : Token}
    (hdocs : Many DocDerived docs texts) (href : RefDerived src (docLines texts) ref r)
    (hend : semicolon.kind = .semicolon) :
    StatementDerived src (docs ++ (ref ++ [semicolon])) (.node r)
  | chain {docs group steps : List Token} {texts : List String} {first : NodeGroup}
    {rest : List (Arrow × NodeGroup)} {semicolon : Token} (hdocs : Many DocDerived docs texts)
    (hfirst : GroupDerived src [] group first) (hrest : Many (StepDerived src) steps rest)
    (hne : rest ≠ []) (hend : semicolon.kind = .semicolon) :
    StatementDerived src (docs ++ (group ++ (steps ++ [semicolon])))
      (.chain { docs := docLines texts, first, rest })

/-- The documentation of a reference may be left out. -/
theorem RefDerived.withoutDocs {src : Source} {docs : List String} {ts : List Token} {r : NodeRef}
    (h : RefDerived src docs ts r) : RefDerived src [] ts { r with docs := [] } := by
  cases h with
  | bare hkind hname => exact .bare hkind hname
  | typed hkind hname hcolon htaken => exact .typed hkind hname hcolon htaken

theorem FurtherDerived.docs_eq {src : Source} {ts : List Token} {r : NodeRef}
    (h : FurtherDerived src ts r) : { r with docs := [] } = r := by
  obtain ⟨-, href⟩ := h
  cases href <;> rfl

theorem map_withoutDocs {src : Source} {ts : List Token} {rs : List NodeRef}
    (h : Many (FurtherDerived src) ts rs) : rs.map ({ · with docs := [] }) = rs := by
  induction h with
  | nil => rfl
  | cons hitem _ ih => rw [List.map_cons, ih, hitem.docs_eq]

theorem GroupDerived.withoutDocs {src : Source} {docs : List String} {ts : List Token} {g : NodeGroup}
    (h : GroupDerived src docs ts g) : GroupDerived src [] ts (g.map ({ · with docs := [] })) := by
  obtain ⟨hfirst, hmore⟩ := h
  rw [List.map_cons, map_withoutDocs hmore]
  exact .mk hfirst.withoutDocs hmore

namespace Parser

open TokenStream

variable {src : Source} {s : TokenStream}

/-! ## Arrows -/

section
variable {rest : List Token} {last : Token} {α : Type}

theorem finds_dash {ts : List Token} {next : Parser α} {post : α → TokenStream → Prop}
    (h : DashDerived ts) (hrest : (⟨rest, last⟩ : TokenStream).current.kind ≠ .minus)
    (hnext : Finds src ⟨rest, last⟩ next post) : Finds src ⟨ts ++ rest, last⟩ (do
      if ← isAt .minus then
        let _ ← advance
      next) post := by
  cases h with
  | none => exact finds_isNotAt hrest hnext
  | one hkind => exact finds_isAt hkind (finds_advance hnext)

theorem finds_expectName {β : Type} {t : Token} {next : Token → Parser β} {post : β → TokenStream → Prop}
    (hname : t.kind.isName = true) (h : Finds src ⟨rest, last⟩ (next t) post) :
    Finds src ⟨t :: rest, last⟩ (expectName >>= next) post := finds_accept hname h

theorem finds_labelDerived {ts : List Token} {form : ArrowForm} (h : LabelDerived ts form)
    (hrest : (⟨rest, last⟩ : TokenStream).current.kind ≠ .string) :
    Finds src ⟨ts ++ rest, last⟩ arrowLabel fun f s' => f = form ∧ s' = ⟨rest, last⟩ := by
  have hother : ∀ {t : Token}, t.kind.isName = true → t.kind ≠ .string := by
    intro t hname hstring
    rw [hstring] at hname
    cases hname
  unfold arrowLabel
  cases h with
  | name hname =>
    refine finds_isNotAt (hother hname) (from_ite nofun fun _ => finds_expectName hname ?_)
    exact finds_isNotAt hrest (from_pure ⟨rfl, rfl⟩)
  | text htext => exact finds_isAt htext (finds_advance (from_pure ⟨rfl, rfl⟩))
  | both hname htext =>
    refine finds_isNotAt (hother hname) (from_ite nofun fun _ => finds_expectName hname ?_)
    exact finds_isAt htext (finds_advance (from_pure ⟨rfl, rfl⟩))

/-- What an arrow says starts with no dash and no head of an arrow. -/
theorem exists_of_labelDerived {ts : List Token} {form : ArrowForm} (h : LabelDerived ts form) :
    ∃ t more, ts = t :: more ∧ t.kind ≠ .minus ∧ t.kind ≠ .arrow := by
  have hother : ∀ {t : Token}, t.kind.isName = true → t.kind ≠ .minus ∧ t.kind ≠ .arrow := by
    intro t hname
    constructor <;> intro hkind <;> rw [hkind] at hname <;> cases hname
  cases h with
  | name hname => exact ⟨_, _, rfl, hother hname⟩
  | text htext => exact ⟨_, _, rfl, by rw [htext]; exact ⟨nofun, nofun⟩⟩
  | both hname htext => exact ⟨_, _, rfl, hother hname⟩

theorem finds_arrowDerived {ts : List Token} {a : Arrow} (h : ArrowDerived ts a) :
    Finds src ⟨ts ++ rest, last⟩ arrow fun a' s' => a' = a ∧ s' = ⟨rest, last⟩ := by
  unfold arrow
  refine from_current ?_
  cases h with
  | @plain head hhead =>
    have hkind : (TokenStream.mk ([head] ++ rest) last).current.kind = .arrow := hhead
    rw [hkind]
    exact finds_advance (from_pure ⟨rfl, rfl⟩)
  | @long dash head hdash hhead =>
    have hkind : (TokenStream.mk ([dash, head] ++ rest) last).current.kind = .minus := hdash
    rw [hkind]
    exact finds_advance (finds_isAt hhead (finds_advance (from_pure ⟨rfl, rfl⟩)))
  | @labelled dash head front label back form hdash hfront hlabel hback hhead =>
    obtain ⟨t, more, rfl, hminus, harrow⟩ := exists_of_labelDerived hlabel
    have hkind : (TokenStream.mk (dash :: (front ++ (t :: more ++ (back ++ [head]))) ++ rest)
        last).current.kind = .minus := hdash
    rw [hkind, List.cons_append, List.append_assoc, List.append_assoc, List.append_assoc]
    have hnotHead : (⟨front ++ (t :: more ++ (back ++ ([head] ++ rest))), last⟩ :
        TokenStream).current.kind ≠ .arrow := by
      cases hfront with
      | none => exact harrow
      | one hfront => exact current_ne hfront nofun
    have hnotText : (⟨back ++ ([head] ++ rest), last⟩ : TokenStream).current.kind ≠ .string := by
      cases hback with
      | none => exact current_ne hhead nofun
      | one hback => exact current_ne hback nofun
    refine finds_advance (finds_isNotAt hnotHead (from_ite nofun fun _ => ?_))
    refine finds_dash hfront hminus ((finds_labelDerived hlabel hnotText).bind ?_)
    rintro _ _ ⟨rfl, rfl⟩
    refine finds_dash hback (current_ne hhead nofun) ((finds_arrowHead hhead).bind ?_)
    rintro _ _ ⟨rfl, rfl⟩
    exact from_pure ⟨rfl, rfl⟩

end

/-! ## Groups -/

/-- Behind `front`, where some brackets may be open, the brackets of some tokens close one another and all
that are open, and outside of them there is nothing that ends a type. -/
structure EnclosedBehind (front kinds : List TokenKind) : Prop where
  balanced : (front ++ kinds).countP TokenKind.isClosing = (front ++ kinds).countP TokenKind.isOpening
  closing : ∀ more, more <+: kinds →
    (front ++ more).countP TokenKind.isClosing ≤ (front ++ more).countP TokenKind.isOpening
  stop : ∀ more kind back, kinds = more ++ kind :: back → kind ∈ typeStops →
    (front ++ more).countP TokenKind.isClosing = (front ++ more).countP TokenKind.isOpening →
      kind = .arrow ∧ (front ++ more).getLast? = some .rightParen

/-- A token that ends nothing may come in front. -/
theorem EnclosedBehind.cons {front kinds : List TokenKind} {kind : TokenKind}
    (h : EnclosedBehind (front ++ [kind]) kinds)
    (hclosing : front.countP TokenKind.isClosing ≤ front.countP TokenKind.isOpening)
    (hstop : kind ∈ typeStops →
      front.countP TokenKind.isClosing = front.countP TokenKind.isOpening →
        kind = .arrow ∧ front.getLast? = some .rightParen) : EnclosedBehind front (kind :: kinds) where
  balanced := by
    rw [List.append_cons]
    exact h.balanced
  closing more hmore := by
    rcases List.prefix_cons_iff.mp hmore with rfl | ⟨more, rfl, hbehind⟩
    · rwa [List.append_nil]
    · rw [List.append_cons]
      exact h.closing more hbehind
  stop more kind' back heq hmem hcount := by
    cases more with
    | nil =>
      obtain ⟨rfl, -⟩ := List.cons.inj heq
      rw [List.append_nil] at hcount ⊢
      exact hstop hmem hcount
    | cons first more =>
      obtain ⟨rfl, hkinds⟩ := List.cons.inj heq
      rw [List.append_cons] at hcount ⊢
      exact h.stop more kind' back hkinds hmem hcount

/-- Whatever is taken in front of the stop that ends a type has no stop outside of its brackets. -/
theorem enclosedBehind_of_reaches {front : List TokenKind} {depth : Nat} {taken rest : List Token}
    (h : Balanced.Reaches typeStops depth front.getLast? taken rest)
    (hdepth : front.countP TokenKind.isClosing + depth = front.countP TokenKind.isOpening) :
    EnclosedBehind front (taken.map Token.kind) := by
  generalize hprevious : front.getLast? = previous at h
  induction h generalizing front with
  | stop =>
    refine ⟨?_, fun more hmore => ?_, fun more _ _ heq => ?_⟩
    · rw [List.map_nil, List.append_nil]
      omega
    · rw [List.prefix_nil.mp hmore, List.append_nil]
      omega
    · exact absurd heq (by simp)
  | pass hpasses hshifts _ ih =>
    refine (ih (hshifts.countP_concat hdepth) (List.getLast?_concat ..)).cons (by omega) fun hstop hcount => ?_
    rw [hprevious]
    exact hpasses (by omega) hstop

theorem Taken.enclosed {s' : TokenStream} {taken : List Token} (h : Taken typeStops s taken s') :
    Enclosed (taken.map Token.kind) := by
  have hbehind : EnclosedBehind [] (taken.map Token.kind) := enclosedBehind_of_reaches (.of_upTo h.stopped) rfl
  exact {
    nonempty := fun hnil => h.nonempty (List.map_eq_nil_iff.mp hnil)
    balanced := hbehind.balanced
    closing := hbehind.closing
    stop := hbehind.stop }

theorem nodeRef_derived (docs : List String) (hs : s.Ended) :
    Proceeds src s (nodeRef docs) fun r s' => ∃ ts, RefDerived src docs ts r ∧ Passes ts s s' := by
  unfold nodeRef
  refine from_current (from_ite (fun _ => from_fail_bind nofun) fun hother => ?_)
  have hkind : s.current.kind = .identifier := by simpa using hother
  refine proceeds_advance hs (by rw [hkind]; nofun) fun s₁ h₁ hs₁ => ?_
  split
  · exact proceeds_fail nofun
  · next name hname =>
    refine proceeds_isAt_advance hs₁ nofun (fun colon s₂ h₂ _ hcolon => ?_) ?_
    · have hty : Proceeds src s₂ (some <$> textUpTo typeStops "type") fun ty s' =>
          ∃ taken, Taken typeStops s₂ taken s' ∧ ty = some (src.textOf taken) :=
        from_map (textUpTo_taken _ _) fun _ _ ⟨taken, h₃, htext⟩ => ⟨taken, h₃, by rw [htext]⟩
      refine hty.bind ?_
      rintro _ s₃ ⟨taken, h₃, rfl⟩
      refine from_pure ⟨_, .typed hkind hname hcolon h₃.enclosed, ?_⟩
      exact h₁.trans_passes (h₂.trans_passes ⟨h₃.last, h₃.ahead⟩)
    · exact from_pure ⟨_, .bare hkind hname, h₁.passes⟩

theorem group_derived (docs : List String) (hs : s.Ended) :
    Proceeds src s (group docs) fun g s' => ∃ ts, GroupDerived src docs ts g ∧ Passes ts s s' := by
  unfold group
  refine (nodeRef_derived docs hs).bind fun first s₁ ⟨front, hfirst, h₁⟩ => ?_
  refine from_rounds (fun g s' => ∃ more rs, g = first :: rs ∧ Many (FurtherDerived src) more rs ∧
    Passes (front ++ more) s s') ?_ ⟨[], [], rfl, .nil, by rwa [List.append_nil]⟩
  rintro _ s₂ ⟨more, rs, rfl, hmany, h₂⟩
  refine proceeds_isAt_advance (h₂.ended hs) nofun (fun ampersand s₃ h₃ hs₃ hkind => ?_) ?_
  · refine (nodeRef_derived [] hs₃).bind fun r s₄ ⟨ts, href, h₄⟩ => ?_
    have hpasses : Passes (ampersand :: ts) s₂ s₄ := h₃.trans_passes h₄
    refine from_pure ⟨⟨_, _, rfl, hmany.concat (.mk hkind href), ?_⟩, hpasses.fewer nofun⟩
    rw [← List.append_assoc]
    exact h₂.trans hpasses
  · exact from_pure ⟨_, .mk hfirst hmany, h₂⟩

/-! ## Statements -/

theorem ne_nil_of_stepDerived {ts : List Token} {step : Arrow × NodeGroup}
    (h : StepDerived src ts step) : ts ≠ [] := by
  obtain ⟨harrow, -, -⟩ := h
  exact List.append_ne_nil_of_left_ne_nil harrow.ne_nil _

theorem chainRest_derived (hs : s.Ended) :
    Proceeds src s chainRest fun rest s' => ∃ ts, Many (StepDerived src) ts rest ∧ Passes ts s s' := by
  unfold chainRest
  refine from_rounds (fun rest s' => ∃ ts, Many (StepDerived src) ts rest ∧ Passes ts s s') ?_
    ⟨[], .nil, Passes.refl s⟩
  rintro rest s₁ ⟨ts, hmany, h₁⟩
  have hs₁ : s₁.Ended := h₁.ended hs
  refine proceeds_isAt (fun _ => from_pure ⟨ts, hmany, h₁⟩) ?_
  refine (arrow_derived hs₁).bind fun a s₂ ⟨said, harrow, h₂⟩ => from_current ?_
  refine (group_derived [] (h₂.ended hs₁)).bind fun g s₃ ⟨names, hgroup, h₃⟩ => ?_
  refine from_ite (fun _ => from_fail_bind nofun) fun hnamed => ?_
  have hstep : StepDerived src (said ++ names) (a, g) := by
    refine .mk harrow hgroup fun hname => ?_
    simpa [hname] using hnamed
  have hpasses : Passes (said ++ names) s₁ s₃ := h₂.trans h₃
  exact from_pure ⟨⟨_, hmany.concat hstep, h₁.trans hpasses⟩,
    hpasses.fewer (ne_nil_of_stepDerived hstep)⟩

theorem chain_derived {docs group : List Token} {texts : List String} {first : NodeGroup}
    {s₁ : TokenStream} (hs : s.Ended) (hdocs : Many DocDerived docs texts)
    (hfirst : GroupDerived src (docLines texts) group first) (h₁ : Passes (docs ++ group) s s₁) :
    Proceeds src s₁ (do
      let rest ← chainRest
      if rest.isEmpty then fail (← current) .loneGroup
      let _ ← expect .semicolon
      return Statement.chain
        { docs := docLines texts, first := first.map ({ · with docs := [] }), rest })
      fun st s' => ∃ ts, StatementDerived src ts st ∧ Passes ts s s' := by
  refine (chainRest_derived (h₁.ended hs)).bind fun rest s₂ ⟨steps, hrest, h₂⟩ => ?_
  refine from_ite (fun _ => from_current (from_fail_bind nofun)) fun hempty => ?_
  have hs₂ : s₂.Ended := h₂.ended (h₁.ended hs)
  refine proceeds_expect hs₂ nofun fun semicolon s₃ h₃ _ hend => ?_
  have hne : rest ≠ [] := by simpa using hempty
  refine from_pure ⟨_, .chain hdocs hfirst.withoutDocs hrest hne hend, ?_⟩
  rw [← List.append_assoc]
  exact h₁.trans (h₂.trans h₃.passes)

theorem statement_sound (hs : s.Ended) :
    Proceeds src s statement fun st s' => ∃ ts, StatementDerived src ts st ∧ Passes ts s s' := by
  unfold statement
  refine (docs_derived hs).bind ?_
  rintro _ s₁ ⟨docs, texts, hdocs, rfl, h₁⟩
  refine (group_derived _ (h₁.ended hs)).bind fun first s₂ ⟨group, hfirst, h₂⟩ => ?_
  have hpasses : Passes (docs ++ group) s s₂ := h₁.trans h₂
  have hchain := chain_derived hs hdocs hfirst hpasses
  refine from_isAt (fun hend => from_ite (fun hsingle => ?_) fun _ => hchain) fun _ => ?_
  · obtain @⟨ref, more, r, rs, href, hmore⟩ := hfirst
    cases hmore with
    | nil =>
      refine proceeds_advance (hpasses.ended hs) (by rw [hend]; nofun) fun s₃ h₃ _ => ?_
      refine from_pure ⟨_, .node hdocs href hend, ?_⟩
      rw [List.append_nil] at hpasses
      rw [← List.append_assoc]
      exact hpasses.trans h₃.passes
    | cons => simp [NodeGroup.isMany] at hsingle
  · exact from_ite (fun h => Bool.noConfusion h) fun _ => hchain

/-- **Derivations.** From every place in a list of tokens that ends with the mark of the end, an arrow is
read exactly if the tokens ahead start with one, and then exactly its tokens are taken; and a statement that
is read is derived from the tokens that were taken. -/
theorem statement_derived (hs : s.Ended) :
    (∀ a s', arrow src s = .ok a s' ↔ ∃ ts, ArrowDerived ts a ∧ Passes ts s s') ∧
    ∀ st s', statement src s = .ok st s' → ∃ ts, StatementDerived src ts st ∧ Passes ts s s' := by
  refine ⟨fun a s' => ⟨fun hrun => (arrow_derived hs).of_ok hrun, ?_⟩, fun st s' hrun =>
    (statement_sound hs).of_ok hrun⟩
  rintro ⟨ts, harrow, h⟩
  have hstream : s = ⟨ts ++ s'.ahead, s'.last⟩ := by
    rw [← h.ahead, h.last]
  rw [hstream]
  exact (finds_arrowDerived harrow).eq_ok

end Parser

/-- A chain with documentation of both forms, a group, arrows of three kinds and a type with an arrow. -/
def tour : Source :=
  { text := "/// Walk.\n#[doc = \"Then\nrest.\"] A & B --> C -- go \"on\" -> D -> E: fn(u8) -> u8;" }

theorem tour_derived : ∃ tokens st s', tour.tokenize = .ok tokens ∧
    (TokenStream.ofTokens tokens).Ended ∧
    Parser.statement tour (TokenStream.ofTokens tokens) = .ok st s' ∧ s'.ahead = [] ∧
    st.withoutSpans = .chain {
      docs := [" Walk.", "Then", "rest."]
      first := [{ name := "A" }, { name := "B" }]
      rest := [({ form := .long }, [{ name := "C" }]),
        ({ form := .named "go" [" on"] }, [{ name := "D" }]),
        ({ form := .plain }, [{ name := "E", ty := some "fn(u8) -> u8" }])] } ∧
    ∃ ts, StatementDerived tour ts st ∧
      TokenStream.Passes ts (TokenStream.ofTokens tokens) s' := by
  have hread : tour.tokenize.toOption.map (fun tokens =>
      match Parser.statement tour (TokenStream.ofTokens tokens) with
      | .ok st s' => some (st.withoutSpans, s'.ahead)
      | .error _ _ => none) = some (some (.chain {
        docs := [" Walk.", "Then", "rest."]
        first := [{ name := "A" }, { name := "B" }]
        rest := [({ form := .long }, [{ name := "C" }]),
          ({ form := .named "go" [" on"] }, [{ name := "D" }]),
          ({ form := .plain }, [{ name := "E", ty := some "fn(u8) -> u8" }])] }, [])) := by
    decide +kernel
  cases htokens : tour.tokenize with
  | error e =>
    rw [htokens] at hread
    cases hread
  | ok tokens =>
    have hs : (TokenStream.ofTokens tokens).Ended := Source.ended_ofTokens htokens
    cases hrun : Parser.statement tour (TokenStream.ofTokens tokens) with
    | error e s' => simp [htokens, hrun, Except.toOption] at hread
    | ok st s' =>
      obtain ⟨hst, hahead⟩ : st.withoutSpans = _ ∧ s'.ahead = [] := by
        simpa [htokens, hrun, Except.toOption] using hread
      exact ⟨tokens, st, s', rfl, hs, hrun, hahead, hst, (Parser.statement_derived hs).2 st s' hrun⟩

end Typestate
