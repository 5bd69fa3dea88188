import Typestate.Proofs.Grammar.TypeEnd

/-!
What a group of references is read as. An ampersand ends no type, so a reference that has one takes all
that follows into it, up to the arrow behind the group, and the references in front of it are read as they
are written. A group is therefore read as its references exactly if none but the last has a type, and that
type does not take the arrow as well (`Parser.group_written`).
-/

namespace Typestate

/-! ## References as they are written -/

/-- The name of a reference, and the tokens of its type with the colon in front of them. -/
structure WrittenRef where
  token : Token
  name : String
  ty : Option (Token × List Token) := none
  deriving DecidableEq, Repr

/-- The brackets of a type close one another, and outside of them nothing stands that parts references or
ends a type. -/
structure MemberType (kinds : List TokenKind) : Prop extends Matched kinds where
  nonempty : kinds ≠ []
  part : ∀ front kind back, kinds = front ++ kind :: back → kind ∈ .ampersand :: Parser.typeStops →
    front.countP TokenKind.isClosing ≠ front.countP TokenKind.isOpening

instance (kinds : List TokenKind) : Decidable (MemberType kinds) :=
  decidable_of_iff (Matched kinds ∧ kinds ≠ [] ∧ ∀ i < kinds.length, ∀ kind ∈ kinds[i]?,
      kind ∈ .ampersand :: Parser.typeStops →
        (kinds.take i).countP TokenKind.isClosing ≠ (kinds.take i).countP TokenKind.isOpening)
    ⟨fun ⟨hmatched, hne, hpart⟩ => ⟨hmatched, hne, forall_split_iff.mpr hpart⟩,
      fun ⟨hmatched, hne, hpart⟩ => ⟨hmatched, hne, forall_split_iff.mp hpart⟩⟩

namespace WrittenRef

/-- The tokens of a reference in order. -/
def tokens (r : WrittenRef) : List Token :=
  match r.ty with
  | none => [r.token]
  | some (colon, taken) => r.token :: colon :: taken

/-- The tokens of further references, each with an ampersand in front. -/
def furtherTokens (more : List (Token × WrittenRef)) : List Token :=
  more.flatMap fun p => p.1 :: p.2.tokens

/-- The tokens are what they are meant to be. -/
structure Readable (r : WrittenRef) : Prop where
  identifier : r.token.kind = .identifier
  canonical : Identifier.canonical r.token.value = .ok r.name
  ty : ∀ colon taken, r.ty = some (colon, taken) → colon.kind = .colon ∧ MemberType (taken.map Token.kind)

/-- The reference with its own type. -/
def node (src : Source) (docs : List String) (r : WrittenRef) : NodeRef :=
  { name := r.name, ty := r.ty.map fun p => src.textOf p.2, docs, span := some r.token.span }

/-- References with their own types, the first with documentation. -/
def members (src : Source) (docs : List String) : List WrittenRef → NodeGroup
  | [] => []
  | r :: rs => r.node src docs :: members src [] rs

/-- What references are read as: one with a type takes all that follows into it. -/
def readFrom (r : WrittenRef) : List (Token × WrittenRef) → List WrittenRef
  | [] => [r]
  | (ampersand, next) :: more =>
    match r.ty with
    | none => r :: readFrom next more
    | some (colon, taken) =>
      [{ r with ty := some (colon, taken ++ furtherTokens ((ampersand, next) :: more)) }]

theorem tokens_of_none {r : WrittenRef} (h : r.ty = none) : r.tokens = [r.token] := by
  rw [tokens, h]

theorem tokens_of_some {r : WrittenRef} {colon : Token} {taken : List Token} (h : r.ty = some (colon, taken)) :
    r.tokens = r.token :: colon :: taken := by
  rw [tokens, h]

theorem furtherTokens_cons (ampersand : Token) (r : WrittenRef) (more : List (Token × WrittenRef)) :
    furtherTokens ((ampersand, r) :: more) = ampersand :: (r.tokens ++ furtherTokens more) := rfl

theorem readFrom_of_some {r : WrittenRef} {colon : Token} {taken : List Token}
    (h : r.ty = some (colon, taken)) (more : List (Token × WrittenRef)) :
    r.readFrom more = [{ r with ty := some (colon, taken ++ furtherTokens more) }] := by
  cases more with
  | nil => rw [readFrom, furtherTokens, List.flatMap_nil, List.append_nil, ← h]
  | cons p more => rw [readFrom, h]

/-- As many references are read as are written exactly if none but the last has a type. -/
theorem length_readFrom_iff (r : WrittenRef) (more : List (Token × WrittenRef)) :
    (r.readFrom more).length = more.length + 1 ↔ ∀ f ∈ (r :: more.map (·.2)).dropLast, f.ty = none := by
  induction more generalizing r with
  | nil => simp [readFrom]
  | cons p more ih =>
    obtain ⟨ampersand, next⟩ := p
    rw [List.map_cons, List.dropLast_cons_cons, List.forall_mem_cons, ← ih]
    cases hty : r.ty with
    | none => simp [readFrom, hty]
    | some p => simp [readFrom_of_some hty]

theorem readFrom_eq {r : WrittenRef} {more : List (Token × WrittenRef)}
    (h : ∀ f ∈ (r :: more.map (·.2)).dropLast, f.ty = none) : r.readFrom more = r :: more.map (·.2) := by
  induction more generalizing r with
  | nil => rfl
  | cons p more ih =>
    obtain ⟨ampersand, next⟩ := p
    rw [List.map_cons, List.dropLast_cons_cons, List.forall_mem_cons] at h
    rw [readFrom, h.1, List.map_cons, ih h.2]

theorem length_members (src : Source) (docs : List String) (rs : List WrittenRef) :
    (members src docs rs).length = rs.length := by
  induction rs generalizing docs with
  | nil => rfl
  | cons r rs ih => rw [members, List.length_cons, ih, List.length_cons]

end WrittenRef

/-! ## Enclosed references -/

/-- Enclosed tokens are enclosed together. -/
theorem Enclosed.append {kinds kinds' : List TokenKind} (h : Enclosed kinds) (h' : Enclosed kinds') :
    Enclosed (kinds ++ kinds') where
  nonempty := List.append_ne_nil_of_left_ne_nil h.nonempty kinds'
  balanced := by rw [List.countP_append, List.countP_append, h.balanced, h'.balanced]
  closing front hfront := by
    obtain ⟨behind, heq⟩ := hfront
    rcases List.append_eq_append_iff.mp heq with ⟨left, rfl, -⟩ | ⟨right, rfl, rfl⟩
    · exact h.closing front (List.prefix_append ..)
    · have hright := h'.closing right (List.prefix_append ..)
      rw [List.countP_append, List.countP_append, h.balanced]
      omega
  stop front kind back heq hmem hcount := by
    rcases List.append_eq_append_iff.mp heq with ⟨left, rfl, rfl⟩ | ⟨right, rfl, hback⟩
    · rw [List.countP_append, List.countP_append, h.balanced, Nat.add_left_cancel_iff] at hcount
      obtain ⟨harrow, hparen⟩ := h'.stop left kind back rfl hmem hcount
      exact ⟨harrow, by rw [List.getLast?_append, hparen, Option.some_or]⟩
    · cases right with
      | nil =>
        -- What is enclosed starts with no stop.
        obtain ⟨-, hparen⟩ := h'.stop [] kind back hback.symm hmem rfl
        cases hparen
      | cons kind' right =>
        obtain ⟨rfl, -⟩ := List.cons.inj hback
        exact h.stop front kind right rfl hmem hcount

theorem enclosed_singleton {kind : TokenKind} (hopening : kind.isOpening = false)
    (hclosing : kind.isClosing = false) (hstop : kind ∉ Parser.typeStops) : Enclosed [kind] where
  nonempty := List.cons_ne_nil _ _
  balanced := by simp [hopening, hclosing]
  closing front hfront := by
    rcases List.prefix_cons_iff.mp hfront with rfl | ⟨front, rfl, hbehind⟩
    · exact Nat.le_refl 0
    · rw [List.prefix_nil.mp hbehind]
      simp [hopening, hclosing]
  stop front kind' back heq hmem _ := by
    obtain ⟨-, hkind⟩ | ⟨_, -, hnil⟩ := List.append_eq_cons_iff.mp heq.symm
    · cases hkind
      exact absurd hmem hstop
    · cases List.append_eq_nil_iff.mp hnil.symm |>.2

theorem MemberType.enclosed {kinds : List TokenKind} (h : MemberType kinds) : Enclosed kinds where
  nonempty := h.nonempty
  balanced := h.balanced
  closing := h.closing
  stop front kind back heq hmem hcount :=
    absurd hcount (h.part front kind back heq (List.mem_cons_of_mem _ hmem))

namespace WrittenRef

theorem Readable.enclosed {r : WrittenRef} (h : r.Readable) : Enclosed (r.tokens.map Token.kind) := by
  have hname : Enclosed [r.token.kind] := by
    rw [h.identifier]
    exact enclosed_singleton rfl rfl (by decide)
  cases hty : r.ty with
  | none =>
    rw [tokens_of_none hty]
    exact hname
  | some p =>
    obtain ⟨colon, taken⟩ := p
    obtain ⟨hcolon, htaken⟩ := h.ty colon taken hty
    have hcolon : Enclosed [colon.kind] := by
      rw [hcolon]
      exact enclosed_singleton rfl rfl (by decide)
    rw [tokens_of_some hty]
    exact hname.append (hcolon.append htaken.enclosed)

/-- Enclosed tokens stay so with references behind them. -/
theorem enclosed_furtherTokens {toks : List Token} (h : Enclosed (toks.map Token.kind))
    {more : List (Token × WrittenRef)} (hmore : ∀ p ∈ more, p.1.kind = .ampersand ∧ p.2.Readable) :
    Enclosed ((toks ++ furtherTokens more).map Token.kind) := by
  induction more generalizing toks with
  | nil => rwa [furtherTokens, List.flatMap_nil, List.append_nil]
  | cons p more ih =>
    obtain ⟨ampersand, r⟩ := p
    obtain ⟨⟨hampersand, hr⟩, hmore⟩ := List.forall_mem_cons.mp hmore
    have hlead : Enclosed [ampersand.kind] := by
      rw [hampersand]
      exact enclosed_singleton rfl rfl (by decide)
    have hnext : Enclosed ((toks ++ ampersand :: r.tokens).map Token.kind) := by
      rw [List.map_append]
      exact h.append (hlead.append hr.enclosed)
    have hrest := ih hnext hmore
    rwa [List.append_assoc] at hrest

end WrittenRef

namespace Parser

open WrittenRef

variable {may : ParseCause → Prop} {src : Source} {rest : List Token} {last : Token}

/-! ## Reading references -/

/-- A round of a group: one more reference behind an ampersand. -/
def moreMembers (found : NodeGroup) : Parser (Round NodeGroup) := do
  if ← isAt .ampersand then
    let _ ← advance
    return .again (found ++ [← nodeRef []])
  else return .done found

/-- What is left of a group when some references are found. -/
def membersFrom (docs : List String) (found : NodeGroup) : Parser NodeGroup := do
  let next ← nodeRef docs
  rounds moreMembers (found ++ [next])

theorem group_eq (docs : List String) : group docs = membersFrom docs [] := rfl

/-- What a sequence does is done from the stream on that its first part leaves. -/
theorem From.of_bind {α β : Type} {p : Parser α} {next : α → Parser β} {s : TokenStream}
    {post : β → TokenStream → Prop} (h : From may src s (p >>= next) post) :
    From may src s p fun a s' => p src s = .ok a s' ∧ From may src s' (next a) post := by
  have hbind : (p >>= next) src s = EStateM.bind (p src) (fun a => next a src) s := rfl
  unfold From at h ⊢
  rw [hbind, EStateM.bind] at h
  cases hrun : p src s with
  | ok a s' =>
    rw [hrun] at h
    exact ⟨rfl, h⟩
  | error e s' =>
    rw [hrun] at h
    exact h

/-- Behind an ampersand the group goes on as it began. -/
theorem from_ampersand {ampersand : Token} {ahead : List Token} {found : NodeGroup}
    {post : NodeGroup → TokenStream → Prop} (hampersand : ampersand.kind = .ampersand)
    (hlast : last.kind = .endOfInput) (h : From may src ⟨ahead, last⟩ (membersFrom [] found) post) :
    From may src ⟨ampersand :: ahead, last⟩ (rounds moreMembers found) post := by
  have hmoves : Proceeds src ⟨ahead, last⟩ (nodeRef []) _ := nodeRef_captured [] hlast
  refine from_rounds_step (finds_isAt hampersand (finds_advance ?_))
  refine h.of_bind.bind ?_
  rintro r s' ⟨hrun, hrest⟩
  exact from_pure ⟨Nat.lt_succ_of_lt (hmoves.of_ok hrun).1.fewer, hrest⟩

theorem finds_membersDone {found : NodeGroup} {stop : Token} (hstop : stop.kind ≠ .ampersand) :
    Finds src ⟨stop :: rest, last⟩ (rounds moreMembers found) fun g s' =>
      g = found ∧ s' = ⟨stop :: rest, last⟩ :=
  from_rounds_step (finds_isNotAt hstop (from_pure ⟨rfl, rfl⟩))

variable {r : WrittenRef} {more : List (Token × WrittenRef)} {stop : Token}

theorem node_of_none {docs : List String} (hty : r.ty = none) :
    r.node src docs = { name := r.name, docs, span := some r.token.span } := by
  rw [node, hty, Option.map_none]

/-- The last token of a reference and those behind it is that of its type and those behind it. -/
theorem getLast?_typed {colon : Token} {taken : List Token} (hr : r.Readable)
    (hty : r.ty = some (colon, taken)) :
    ((r.tokens ++ furtherTokens more).map Token.kind).getLast? =
      ((taken ++ furtherTokens more).map Token.kind).getLast? := by
  have hne : (taken ++ furtherTokens more).map Token.kind ≠ [] := by
    rw [List.map_append]
    exact List.append_ne_nil_of_left_ne_nil (hr.ty colon taken hty).2.nonempty _
  rw [tokens_of_some hty]
  exact List.getLast?_append_of_ne_nil [r.token.kind, colon.kind] hne

theorem tokens_ne_nil : r.tokens ≠ [] := by
  unfold tokens
  split <;> exact List.cons_ne_nil _ _

/-- The last token of an untyped reference and those behind it is that of the next one and those behind it. -/
theorem getLast?_untyped {ampersand : Token} {next : WrittenRef} :
    ((r.tokens ++ furtherTokens ((ampersand, next) :: more)).map Token.kind).getLast? =
      ((next.tokens ++ furtherTokens more).map Token.kind).getLast? := by
  have hne : (next.tokens ++ furtherTokens more).map Token.kind ≠ [] := by
    rw [List.map_append]
    exact List.append_ne_nil_of_left_ne_nil (by simpa using tokens_ne_nil) _
  rw [furtherTokens_cons, List.append_cons, List.map_append]
  exact List.getLast?_append_of_ne_nil _ hne

/-- Behind a reference without a type the group goes on with the next one. -/
theorem from_untyped {ampersand : Token} {next : WrittenRef} {behind : List Token} {docs : List String}
    {found : NodeGroup} {post : NodeGroup → TokenStream → Prop} (hr : r.Readable) (hty : r.ty = none)
    (hampersand : ampersand.kind = .ampersand) (hlast : last.kind = .endOfInput)
    (h : From may src ⟨next.tokens ++ (furtherTokens more ++ behind), last⟩
      (membersFrom [] (found ++ [r.node src docs])) post) :
    From may src ⟨r.tokens ++ (furtherTokens ((ampersand, next) :: more) ++ behind), last⟩
      (membersFrom docs found) post := by
  have hstream : r.tokens ++ (furtherTokens ((ampersand, next) :: more) ++ behind) =
      r.token :: ampersand :: (next.tokens ++ (furtherTokens more ++ behind)) := by
    rw [tokens_of_none hty, furtherTokens_cons]
    simp
  rw [hstream]
  unfold membersFrom
  refine From.bind (finds_nodeRef_untyped hr.identifier hr.canonical
    (current_ne hampersand nofun)).allowing ?_
  rintro _ _ ⟨rfl, rfl⟩
  rw [node_of_none hty] at h
  exact from_ampersand hampersand hlast h

/-- A reference with a type is the last that is read. -/
theorem finds_members_typed {colon : Token} {taken : List Token} (hr : r.Readable)
    (hty : r.ty = some (colon, taken)) (hmore : ∀ p ∈ more, p.1.kind = .ampersand ∧ p.2.Readable)
    (hstop : stop.kind ∈ typeStops)
    (hparen : stop.kind = .arrow →
      ((r.tokens ++ furtherTokens more).map Token.kind).getLast? ≠ some .rightParen)
    (docs : List String) (found : NodeGroup) :
    Finds src ⟨r.tokens ++ (furtherTokens more ++ stop :: rest), last⟩ (membersFrom docs found) fun g s' =>
      g = found ++ members src docs (r.readFrom more) ∧ s' = ⟨stop :: rest, last⟩ := by
  obtain ⟨hcolon, htaken⟩ := hr.ty colon taken hty
  have henclosed := enclosed_furtherTokens htaken.enclosed hmore
  rw [getLast?_typed hr hty] at hparen
  have href : Finds src ⟨r.token :: colon :: (taken ++ furtherTokens more ++ stop :: rest), last⟩
      (nodeRef docs) fun r' s' =>
        r' = ⟨r.name, some (src.textOf (taken ++ furtherTokens more)), docs, some r.token.span⟩ ∧
          s' = ⟨stop :: rest, last⟩ :=
    finds_nodeRef_stopped hr.identifier hr.canonical hcolon (ne_nil_of_enclosed henclosed)
      (upTo_of_enclosed henclosed hstop hparen)
  rw [tokens_of_some hty, readFrom_of_some hty]
  rw [List.append_assoc] at href
  unfold membersFrom
  refine href.bind ?_
  rintro _ _ ⟨rfl, rfl⟩
  exact finds_membersDone (ne_of_mem_typeStops hstop).2

/-- **References.** Without a type one is read as it is written, and the first with a type ends in front of
what stops it. -/
theorem finds_members (hr : r.Readable) (hmore : ∀ p ∈ more, p.1.kind = .ampersand ∧ p.2.Readable)
    (hstop : stop.kind ∈ typeStops)
    (hparen : stop.kind = .arrow →
      ((r.tokens ++ furtherTokens more).map Token.kind).getLast? ≠ some .rightParen)
    (hlast : last.kind = .endOfInput) (docs : List String) (found : NodeGroup) :
    Finds src ⟨r.tokens ++ (furtherTokens more ++ stop :: rest), last⟩ (membersFrom docs found) fun g s' =>
      g = found ++ members src docs (r.readFrom more) ∧ s' = ⟨stop :: rest, last⟩ := by
  induction more generalizing r docs found with
  | nil =>
    cases hty : r.ty with
    | none =>
      have hcolon : (⟨stop :: rest, last⟩ : TokenStream).current.kind ≠ .colon :=
        (ne_of_mem_typeStops hstop).1
      rw [tokens_of_none hty, readFrom, members, node_of_none hty]
      unfold membersFrom
      refine (finds_nodeRef_untyped hr.identifier hr.canonical hcolon).bind ?_
      rintro _ _ ⟨rfl, rfl⟩
      exact finds_membersDone (ne_of_mem_typeStops hstop).2
    | some p => exact finds_members_typed hr hty hmore hstop hparen docs found
  | cons p more ih =>
    cases hty : r.ty with
    | none =>
      obtain ⟨ampersand, next⟩ := p
      obtain ⟨⟨hampersand, hnext⟩, hbehind⟩ := List.forall_mem_cons.mp hmore
      rw [getLast?_untyped] at hparen
      refine from_untyped hr hty hampersand hlast ((ih hnext hbehind hparen [] _).weaken ?_)
      rintro _ _ ⟨rfl, rfl⟩
      refine ⟨?_, rfl⟩
      rw [readFrom, hty, members, List.append_assoc]
      rfl
    | some p' => exact finds_members_typed hr hty hmore hstop hparen docs found

/-! ## Reading past the arrow -/

/-- Whatever else a group finds, it leaves a part of what is ahead. -/
theorem rounds_leads {s : TokenStream} (hs : s.Ended) (found : NodeGroup) :
    Proceeds src s (rounds moreMembers found) fun _ s' => s.Leads s' := by
  refine from_rounds (fun _ s' => s.Leads s') (fun found s₁ h₁ => ?_) (TokenStream.Leads.refl s)
  refine proceeds_isAt_advance (h₁.ended hs) nofun (fun _ s₂ h₂ hs₂ _ => ?_) (from_pure h₁)
  refine (nodeRef_captured [] hs₂).bind fun r s₃ ⟨h₃, _⟩ => ?_
  have hmoves := h₂.moves.trans h₃
  exact from_pure ⟨h₁.trans hmoves.toLeads, hmoves.fewer⟩

/-- A type that ends in a closing parenthesis is enclosed with an arrow behind it, and read with it. -/
theorem members_pass_typed {arrow colon : Token} {taken : List Token} (hr : r.Readable)
    (hty : r.ty = some (colon, taken)) (hmore : ∀ p ∈ more, p.1.kind = .ampersand ∧ p.2.Readable)
    (harrow : arrow.kind = .arrow)
    (hparen : ((r.tokens ++ furtherTokens more).map Token.kind).getLast? = some .rightParen)
    (hlast : last.kind = .endOfInput) (docs : List String) (found : NodeGroup) :
    Proceeds src ⟨r.tokens ++ (furtherTokens more ++ arrow :: rest), last⟩ (membersFrom docs found)
      fun _ s' => s'.ahead <:+ rest := by
  obtain ⟨hcolon, htaken⟩ := hr.ty colon taken hty
  rw [getLast?_typed hr hty] at hparen
  have henclosed : Enclosed ((taken ++ furtherTokens more ++ [arrow]).map Token.kind) := by
    rw [List.map_append, List.map_singleton, harrow]
    exact (enclosed_furtherTokens htaken.enclosed hmore).concat rfl rfl fun _ => ⟨rfl, hparen⟩
  have hstream : r.tokens ++ (furtherTokens more ++ arrow :: rest) =
      r.token :: colon :: (taken ++ furtherTokens more ++ [arrow] ++ rest) := by
    rw [tokens_of_some hty]
    simp
  rw [hstream]
  unfold membersFrom
  refine (nodeRef_enclosed hr.identifier hr.canonical hcolon henclosed).bind ?_
  rintro _ s₁ ⟨hlast₁, behind, hbehind, -⟩
  have hs₁ : s₁.Ended := by
    rw [TokenStream.Ended, hlast₁]
    exact hlast
  refine (rounds_leads hs₁ _).weaken fun _ s₂ h₂ => ?_
  exact h₂.ahead.trans (hbehind ▸ List.suffix_append behind s₁.ahead)

theorem members_pass {arrow : Token} (hr : r.Readable)
    (hmore : ∀ p ∈ more, p.1.kind = .ampersand ∧ p.2.Readable) (harrow : arrow.kind = .arrow)
    (hparen : ((r.tokens ++ furtherTokens more).map Token.kind).getLast? = some .rightParen)
    (hlast : last.kind = .endOfInput) (docs : List String) (found : NodeGroup) :
    Proceeds src ⟨r.tokens ++ (furtherTokens more ++ arrow :: rest), last⟩ (membersFrom docs found)
      fun _ s' => s'.ahead <:+ rest := by
  induction more generalizing r docs found with
  | nil =>
    cases hty : r.ty with
    | none =>
      rw [tokens_of_none hty] at hparen
      exact absurd (Option.some.inj hparen) (by rw [hr.identifier]; nofun)
    | some p => exact members_pass_typed hr hty hmore harrow hparen hlast docs found
  | cons p more ih =>
    cases hty : r.ty with
    | none =>
      obtain ⟨ampersand, next⟩ := p
      obtain ⟨⟨hampersand, hnext⟩, hbehind⟩ := List.forall_mem_cons.mp hmore
      rw [getLast?_untyped] at hparen
      exact from_untyped hr hty hampersand hlast (ih hnext hbehind hparen [] _)
    | some p' => exact members_pass_typed hr hty hmore harrow hparen hlast docs found

/-! ## Groups -/

/-- The tokens of a group with an arrow of any kind behind it, and the end of the text. -/
structure GroupTokens (r : WrittenRef) (more : List (Token × WrittenRef)) (arrow last : Token) : Prop where
  first : r.Readable
  more : ∀ p ∈ more, p.1.kind = .ampersand ∧ p.2.Readable
  arrow : arrow.kind = .arrow ∨ arrow.kind = .minus
  last : last.kind = .endOfInput

/-- **Groups.** From the tokens of a group up to its arrow, the references are read as `readFrom` has it. These
are the ones that are written, with their own types, exactly if none but the last has a type. Only if a
closing parenthesis ends the last type is a plain arrow not the end of the group, but behind it. -/
theorem group_written {r : WrittenRef} {more : List (Token × WrittenRef)} {arrow last : Token}
    (h : GroupTokens r more arrow last) (src : Source) (docs : List String) (rest : List Token) :
    (group docs src ⟨r.tokens ++ furtherTokens more ++ arrow :: rest, last⟩ =
        .ok (members src docs (r :: more.map (·.2))) ⟨arrow :: rest, last⟩ ↔
      (∀ f ∈ (r :: more.map (·.2)).dropLast, f.ty = none) ∧
        ¬ (arrow.kind = .arrow ∧
          ((r.tokens ++ furtherTokens more).map Token.kind).getLast? = some .rightParen)) ∧
    (¬ (arrow.kind = .arrow ∧
        ((r.tokens ++ furtherTokens more).map Token.kind).getLast? = some .rightParen) →
      group docs src ⟨r.tokens ++ furtherTokens more ++ arrow :: rest, last⟩ =
        .ok (members src docs (r.readFrom more)) ⟨arrow :: rest, last⟩) ∧
    ∀ g s', arrow.kind = .arrow →
      ((r.tokens ++ furtherTokens more).map Token.kind).getLast? = some .rightParen →
        group docs src ⟨r.tokens ++ furtherTokens more ++ arrow :: rest, last⟩ = .ok g s' →
          s'.ahead <:+ rest := by
  have hstop : arrow.kind ∈ typeStops := by
    rcases h.arrow with harrow | harrow <;> rw [harrow] <;> decide
  rw [List.append_assoc, group_eq]
  have hread : ¬ (arrow.kind = .arrow ∧
      ((r.tokens ++ furtherTokens more).map Token.kind).getLast? = some .rightParen) →
      membersFrom docs [] src ⟨r.tokens ++ (furtherTokens more ++ arrow :: rest), last⟩ =
        .ok (members src docs (r.readFrom more)) ⟨arrow :: rest, last⟩ := fun hends =>
    (finds_members h.first h.more hstop (not_and.mp hends) h.last docs []).eq_ok
  have hpass : ∀ g s', arrow.kind = .arrow →
      ((r.tokens ++ furtherTokens more).map Token.kind).getLast? = some .rightParen →
      membersFrom docs [] src ⟨r.tokens ++ (furtherTokens more ++ arrow :: rest), last⟩ = .ok g s' →
        s'.ahead <:+ rest := fun g s' harrow hparen hrun =>
    (members_pass h.first h.more harrow hparen h.last docs []).of_ok hrun
  refine ⟨⟨fun hrun => ?_, fun ⟨huntyped, hends⟩ => ?_⟩, hread, hpass⟩
  · have hends : ¬ (arrow.kind = .arrow ∧
        ((r.tokens ++ furtherTokens more).map Token.kind).getLast? = some .rightParen) := by
      rintro ⟨harrow, hparen⟩
      have hshorter := (hpass _ _ harrow hparen hrun).length_le
      rw [List.length_cons] at hshorter
      omega
    refine ⟨(r.length_readFrom_iff more).mp ?_, hends⟩
    have hsame := (EStateM.Result.ok.inj (hrun.symm.trans (hread hends))).1
    have hlength := congrArg List.length hsame
    rw [length_members, length_members, List.length_cons, List.length_map] at hlength
    exact hlength.symm
  · rw [hread hends, readFrom_eq huntyped]

end Parser

/-- A group of two references, the last of which has a type. -/
def slots : Source := { text := "A & B: [u8; 2] -> C;" }

def slotsFirst : WrittenRef := { token := ⟨.identifier, "A", 1, 1, 0, 1⟩, name := "A" }

def slotsLast : WrittenRef where
  token := ⟨.identifier, "B", 1, 5, 4, 5⟩
  name := "B"
  ty := some (⟨.colon, ":", 1, 6, 5, 6⟩, [⟨.leftBracket, "[", 1, 8, 7, 8⟩,
    ⟨.identifier, "u8", 1, 9, 8, 10⟩, ⟨.semicolon, ";", 1, 11, 10, 11⟩, ⟨.number, "2", 1, 13, 12, 13⟩,
    ⟨.rightBracket, "]", 1, 14, 13, 14⟩])

theorem slots_group_written :
    Parser.GroupTokens slotsFirst [(⟨.ampersand, "&", 1, 3, 2, 3⟩, slotsLast)]
      ⟨.arrow, "->", 1, 16, 15, 17⟩ ⟨.endOfInput, "", 1, 21, 20, 20⟩ ∧
    ∃ toks behind mark, slots.tokenize = .ok (toks ++ behind ++ [mark]) ∧ toks.length = 9 ∧
      Parser.group [] slots ⟨toks ++ behind, mark⟩ =
        .ok [{ name := "A", span := some ⟨1, 1, 1⟩ },
          { name := "B", ty := some "[u8; 2]", span := some ⟨1, 5, 1⟩ }] ⟨behind, mark⟩ := by
  have hlast : slotsLast.Readable := by
    refine ⟨rfl, by decide +kernel, ?_⟩
    rintro _ _ ⟨⟩
    exact ⟨rfl, by decide +kernel⟩
  have h : Parser.GroupTokens slotsFirst [(⟨.ampersand, "&", 1, 3, 2, 3⟩, slotsLast)]
      ⟨.arrow, "->", 1, 16, 15, 17⟩ ⟨.endOfInput, "", 1, 21, 20, 20⟩ :=
    ⟨⟨rfl, by decide +kernel, nofun⟩, List.forall_mem_singleton.mpr ⟨rfl, hlast⟩, Or.inl rfl, rfl⟩
  have hgroup := (Parser.group_written h slots []
    [⟨.identifier, "C", 1, 19, 18, 19⟩, ⟨.semicolon, ";", 1, 20, 19, 20⟩]).1.mpr
      ⟨by decide +kernel, by decide +kernel⟩
  have htext : WrittenRef.members slots [] [slotsFirst, slotsLast] =
      [{ name := "A", span := some ⟨1, 1, 1⟩ },
        { name := "B", ty := some "[u8; 2]", span := some ⟨1, 5, 1⟩ }] := by decide +kernel
  exact ⟨h, _, _, _, by decide +kernel, by decide +kernel, hgroup.trans (by rw [← htext]; rfl)⟩

/-- The type of a reference in front of another takes the ampersand and the other reference. -/
theorem taggedSlots_group :
    ({ text := "A: u8 & B -> C;" } : Source).tokenize.toOption.map
      (Parser.group.run { text := "A: u8 & B -> C;" }) =
        some (.ok [{ name := "A", ty := some "u8 & B", span := some ⟨1, 1, 1⟩ }]) := by
  decide +kernel

end Typestate
