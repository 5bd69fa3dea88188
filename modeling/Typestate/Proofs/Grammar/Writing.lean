import Typestate.Proofs.Grammar.Moving
import Typestate.Proofs.Grammar.Spelling
import Typestate.Proofs.Text.Fields

/-!
Reading the parts of a statement: from the tokens that a part is written as, its reader gives it back, but
for places, and leaves the tokens behind it. There is one lemma for each reader, up to the arrows and
positions of a chain (`Parser.finds_chainRest`).
-/

namespace Typestate

namespace Parser

open Word (method quoted)

variable {α β : Type} {may : ParseCause → Prop} {src : Source} {rest : List Token} {last : Token}

/-- The reader succeeds with a result and a stream in `post`. -/
abbrev Finds (src : Source) (s : TokenStream) (p : Parser α) (post : α → TokenStream → Prop) : Prop :=
  From (fun _ => False) src s p post

/-- Where there is no complaint, any may be allowed. -/
theorem Finds.allowing {s : TokenStream} {p : Parser α} {post : α → TokenStream → Prop}
    (h : Finds src s p post) : From may src s p post := by
  unfold Finds From at h
  unfold From
  split at h
  · exact h
  · exact h.elim

theorem finds_isAt {s : TokenStream} {k : TokenKind} {next : Bool → Parser β}
    {post : β → TokenStream → Prop} (hkind : s.current.kind = k) (h : From may src s (next true) post) :
    From may src s (isAt k >>= next) post := from_isAt (fun _ => h) fun hother => absurd hkind hother

theorem finds_isNotAt {s : TokenStream} {k : TokenKind} {next : Bool → Parser β}
    {post : β → TokenStream → Prop} (hkind : s.current.kind ≠ k) (h : From may src s (next false) post) :
    From may src s (isAt k >>= next) post := from_isAt (fun hother => absurd hother hkind) fun _ => h

theorem current_ne {t : Token} {k k' : TokenKind} (hkind : t.kind = k) (hne : k ≠ k') :
    (⟨t :: rest, last⟩ : TokenStream).current.kind ≠ k' := fun hother => hne (hkind.symm.trans hother)

theorem finds_advance {t : Token} {next : Token → Parser β} {post : β → TokenStream → Prop}
    (h : From may src ⟨rest, last⟩ (next t) post) : From may src ⟨t :: rest, last⟩ (advance >>= next) post := h

theorem finds_accept {t : Token} {c : Prop} [Decidable c] {refuse : Parser Token} {next : Token → Parser β}
    {post : β → TokenStream → Prop} (hc : c) (h : From may src ⟨rest, last⟩ (next t) post) :
    From may src ⟨t :: rest, last⟩ ((if c then advance else refuse) >>= next) post := by
  rw [if_pos hc]
  exact finds_advance h

theorem finds_expect {k : TokenKind} {t : Token} {next : Token → Parser β} {post : β → TokenStream → Prop}
    (hkind : t.kind = k) (h : From may src ⟨rest, last⟩ (next t) post) :
    From may src ⟨t :: rest, last⟩ (expect k >>= next) post := finds_accept hkind h

theorem finds_expectEnd {next : Token → Parser β} {post : β → TokenStream → Prop}
    (hlast : last.kind = .endOfInput) (h : From may src ⟨[], last⟩ (next last) post) :
    From may src ⟨[], last⟩ (expect .endOfInput >>= next) post := by
  change From may src ⟨[], last⟩ ((if last.kind = .endOfInput then advance else _) >>= next) post
  rw [if_pos hlast]
  exact h

/-- **Repetition.** A list is read back by rounds that take one item each, and a last one that takes none. No
item is taken but a good one. -/
theorem from_items {γ δ : Type} {round : List β → Parser (Round (List β))} {acc : List β} {xs : List γ}
    {s : TokenStream} {post : List β → TokenStream → Prop} (final : TokenStream) (seen : β → δ)
    (meant : γ → δ) (Good : γ → Prop) (Ahead : List γ → TokenStream → Prop) (h : Ahead xs s)
    (hdone : ∀ acc s, Ahead [] s → From may src s (round acc) fun r s' => r = .done acc ∧ s' = final)
    (hagain : ∀ acc x xs s, Ahead (x :: xs) s → From may src s (round acc) fun r s' =>
      ∃ y, r = .again (acc ++ [y]) ∧ (seen y = meant x ∧ Good x) ∧ s'.ahead.length < s.ahead.length ∧
        Ahead xs s')
    (hpost : ∀ ys, ys.map seen = acc.map seen ++ xs.map meant → (∀ x ∈ xs, Good x) → post ys final) :
    From may src s (rounds round acc) post := by
  induction xs generalizing s acc with
  | nil =>
    refine from_rounds_step ((hdone acc s h).weaken ?_)
    rintro _ _ ⟨rfl, rfl⟩
    exact hpost _ (List.append_nil _).symm nofun
  | cons x xs ih =>
    refine from_rounds_step ((hagain acc x xs s h).weaken ?_)
    rintro _ s' ⟨y, rfl, ⟨hy, hx⟩, hfewer, hrest⟩
    refine ⟨hfewer, ih hrest fun ys hys hxs => hpost ys ?_ (List.forall_mem_cons.mpr ⟨hx, hxs⟩)⟩
    rw [hys, List.map_append, List.map_singleton, hy, List.map_cons, List.append_assoc]
    rfl

theorem finds_rounds {γ δ : Type} {round : List β → Parser (Round (List β))} {acc : List β} {xs : List γ}
    {s : TokenStream} {post : List β → TokenStream → Prop} (final : TokenStream) (seen : β → δ)
    (meant : γ → δ) (Ahead : List γ → TokenStream → Prop) (h : Ahead xs s)
    (hdone : ∀ acc s, Ahead [] s → Finds src s (round acc) fun r s' => r = .done acc ∧ s' = final)
    (hagain : ∀ acc x xs s, Ahead (x :: xs) s → Finds src s (round acc) fun r s' =>
      ∃ y, r = .again (acc ++ [y]) ∧ seen y = meant x ∧ s'.ahead.length < s.ahead.length ∧ Ahead xs s')
    (hpost : ∀ ys, ys.map seen = acc.map seen ++ xs.map meant → post ys final) :
    Finds src s (rounds round acc) post := by
  refine from_items final seen meant (fun _ => True) Ahead h hdone (fun acc x xs s hs => ?_)
    fun ys hys _ => hpost ys hys
  refine (hagain acc x xs s hs).weaken ?_
  rintro r s' ⟨y, hr, hy, hfewer, hrest⟩
  exact ⟨y, hr, ⟨hy, trivial⟩, hfewer, hrest⟩

/-! ## Tokens with known contents -/

theorem kind_of_content {t : Token} {content : Content} (h : t.content = content) : t.kind = content.1 :=
  congrArg Prod.fst h

theorem value_of_content {t : Token} {kind : TokenKind} {value : String}
    (h : t.content = (kind, value.toList)) : t.value = value :=
  String.toList_inj.mp (congrArg Prod.snd h)

theorem exists_pair {toks : List Token} {c c' : Content} (h : toks.map Token.content = [c, c']) :
    ∃ t u, toks = [t, u] ∧ t.content = c ∧ u.content = c' := by
  obtain ⟨t, toks, rfl, ht, hnext⟩ := List.map_eq_cons_iff.mp h
  obtain ⟨u, rfl, hu⟩ := List.map_eq_singleton_iff.mp hnext
  exact ⟨t, u, rfl, ht, hu⟩

/-! ## Documentation -/

theorem docFragments_of_not_mem {fragment : String} (h : '\n' ∉ fragment.toList) :
    docFragments fragment = [fragment] := by
  rw [docFragments, Text.lines, Text.fields_of_not_mem h, List.map_singleton, String.ofList_toList]

theorem finds_docs {lines : List String} {toks : List Token}
    (htoks : toks.map Token.content = lines.map fun d => (.doc, d.toList))
    (hlines : ∀ d ∈ lines, '\n' ∉ d.toList)
    (hdoc : (⟨rest, last⟩ : TokenStream).current.kind ≠ .doc)
    (hpound : (⟨rest, last⟩ : TokenStream).current.kind ≠ .pound) :
    Finds src ⟨toks ++ rest, last⟩ docs fun r s' => r = lines ∧ s' = ⟨rest, last⟩ := by
  unfold docs
  refine finds_rounds ⟨rest, last⟩ id id
    (fun lines s => ∃ toks, toks.map Token.content = lines.map (fun d => (.doc, d.toList)) ∧
      (∀ d ∈ lines, '\n' ∉ d.toList) ∧ s = ⟨toks ++ rest, last⟩) ⟨toks, htoks, hlines, rfl⟩ ?_ ?_ ?_
  · rintro acc _ ⟨toks, htoks, -, rfl⟩
    rw [List.map_eq_nil_iff.mp htoks]
    refine from_current ?_
    split
    · next hkind => exact absurd hkind hdoc
    · next hkind => exact absurd hkind hpound
    · exact from_pure ⟨rfl, rfl⟩
  · rintro acc d lines _ ⟨toks, htoks, hlines, rfl⟩
    obtain ⟨t, toks, rfl, ht, htoks⟩ := List.map_eq_cons_iff.mp htoks
    obtain ⟨hd, hlines⟩ := List.forall_mem_cons.mp hlines
    have hkind : (TokenStream.mk (t :: toks ++ rest) last).current.kind = .doc := kind_of_content ht
    refine from_current ?_
    rw [hkind]
    refine finds_advance (from_pure ⟨d, ?_, rfl, Nat.lt_succ_self _, toks, htoks, hlines, rfl⟩)
    rw [value_of_content ht, docFragments_of_not_mem hd]
  · intro found hfound
    exact ⟨by simpa using hfound, rfl⟩

/-! ## Types -/

theorem ne_nil_of_enclosed {taken : List Token} (h : Enclosed (taken.map Token.kind)) : taken ≠ [] := by
  rintro rfl
  exact h.nonempty rfl

/-- Tokens that are enclosed are passed, and looking for a stop goes on behind them. -/
theorem upTo_append_of_enclosed {taken : List Token} (h : Enclosed (taken.map Token.kind))
    (behind : List Token) : Balanced.upTo typeStops 0 none (taken ++ behind) =
      taken.foldr Balanced.prepend
        (Balanced.upTo typeStops 0 (taken.map Token.kind).getLast? behind) := by
  -- The depth is the number of brackets that are open behind the tokens in front.
  suffices hfrom : ∀ (front : List TokenKind) (ts : List Token) (depth : Nat),
      taken.map Token.kind = front ++ ts.map Token.kind →
      front.countP TokenKind.isClosing + depth = front.countP TokenKind.isOpening →
      Balanced.upTo typeStops depth front.getLast? (ts ++ behind) = ts.foldr Balanced.prepend
        (Balanced.upTo typeStops 0 (taken.map Token.kind).getLast? behind) from
    hfrom [] taken 0 rfl rfl
  intro front ts
  induction ts generalizing front with
  | nil =>
    intro depth htaken hdepth
    rw [List.map_nil, List.append_nil] at htaken
    have hzero : depth = 0 := by
      have hbalanced := h.balanced
      rw [htaken] at hbalanced
      omega
    rw [hzero, htaken]
    rfl
  | cons t ts ih =>
    intro depth htaken hdepth
    have hnext : taken.map Token.kind = (front ++ [t.kind]) ++ ts.map Token.kind := by
      rw [htaken, List.map_cons, List.append_assoc]
      rfl
    have hlast : (front ++ [t.kind]).getLast? = some t.kind := List.getLast?_concat ..
    have hopen : t.kind.isClosing = true → depth ≠ 0 := by
      intro hclosed
      have hclosing := h.closing (front ++ [t.kind]) ⟨_, hnext.symm⟩
      simp only [List.countP_append, List.countP_singleton, hclosed,
        TokenKind.not_isOpening_of_isClosing hclosed, ↓reduceIte, Bool.false_eq_true] at hclosing
      omega
    obtain ⟨depth', hshifts⟩ := Balanced.exists_shifts hopen
    have hpasses : depth = 0 → t.kind ∈ typeStops → t.kind = .arrow ∧ front.getLast? = some .rightParen := by
      rintro rfl hmem
      exact h.stop front t.kind _ htaken hmem hdepth
    rw [List.cons_append, Balanced.upTo_of_shifts hpasses hshifts, ← hlast,
      ih _ depth' hnext (hshifts.countP_concat hdepth), List.foldr_cons]

/-- Tokens that are enclosed are taken up to the stop behind them, unless it is an arrow directly behind a
closing parenthesis. -/
theorem upTo_of_enclosed {taken : List Token} {stop : Token} (h : Enclosed (taken.map Token.kind))
    (hstop : stop.kind ∈ typeStops)
    (hparen : stop.kind = .arrow → (taken.map Token.kind).getLast? ≠ some .rightParen) :
    Balanced.upTo typeStops 0 none (taken ++ stop :: rest) = .stopped taken (stop :: rest) := by
  rw [upTo_append_of_enclosed h, Balanced.upTo_of_stop hstop hparen, Balanced.foldr_prepend_stopped, List.append_nil]

theorem finds_textUpTo {stops : List TokenKind} {what : String} {taken : List Token} (hne : taken ≠ [])
    (h : Balanced.upTo stops 0 none (taken ++ rest) = .stopped taken rest) :
    Finds src ⟨taken ++ rest, last⟩ (textUpTo stops what) fun text s' =>
      text = src.textOf taken ∧ s' = ⟨rest, last⟩ := by
  unfold textUpTo
  refine from_get ?_
  rw [h]
  obtain ⟨t, taken, rfl⟩ := List.exists_cons_of_ne_nil hne
  exact from_set (from_read (from_pure ⟨rfl, rfl⟩))

/-! ## Names -/

/-- A node's name is taken, and what comes of it depends on whether a colon follows. -/
theorem finds_nodeRef {lines : List String} {name : String} {t : Token}
    {post : NodeRef → TokenStream → Prop} (ht : t.kind = .identifier)
    (hname : Identifier.canonical t.value = .ok name)
    (h : From may src ⟨rest, last⟩ (do
      let ty ← if ← isAt .colon then do
          let _ ← advance
          some <$> textUpTo typeStops "type"
        else pure none
      return { name, ty, docs := lines, span := some t.span }) post) :
    From may src ⟨t :: rest, last⟩ (nodeRef lines) post := by
  unfold nodeRef
  refine from_current (from_ite (fun hother => ?_) fun _ => finds_advance ?_)
  · rw [show (TokenStream.mk (t :: rest) last).current.kind = .identifier from ht] at hother
    cases hother
  · rw [show Identifier.canonical (TokenStream.mk (t :: rest) last).current.value = .ok name from hname]
    exact h

theorem finds_nodeRef_untyped {lines : List String} {name : String} {t : Token}
    (ht : t.kind = .identifier) (hname : Identifier.canonical t.value = .ok name)
    (hcolon : (⟨rest, last⟩ : TokenStream).current.kind ≠ .colon) :
    Finds src ⟨t :: rest, last⟩ (nodeRef lines) fun r s' =>
      r = { name, docs := lines, span := some t.span } ∧ s' = ⟨rest, last⟩ :=
  finds_nodeRef ht hname (finds_isNotAt hcolon (from_pure ⟨rfl, rfl⟩))

theorem finds_nodeRef_stopped {lines : List String} {name : String} {t colon : Token}
    {taken : List Token} (ht : t.kind = .identifier) (hname : Identifier.canonical t.value = .ok name)
    (hcolon : colon.kind = .colon) (hne : taken ≠ [])
    (hstopped : Balanced.upTo typeStops 0 none (taken ++ rest) = .stopped taken rest) :
    Finds src ⟨t :: colon :: (taken ++ rest), last⟩ (nodeRef lines) fun r s' =>
      r = { name, ty := some (src.textOf taken), docs := lines, span := some t.span } ∧
        s' = ⟨rest, last⟩ := by
  refine finds_nodeRef ht hname (finds_isAt hcolon (finds_advance ?_))
  have hty : Finds src ⟨taken ++ rest, last⟩ (some <$> textUpTo typeStops "type") fun ty s' =>
      ty = some (src.textOf taken) ∧ s' = ⟨rest, last⟩ :=
    from_map (finds_textUpTo hne hstopped) fun _ _ h => ⟨congrArg some h.1, h.2⟩
  refine hty.bind ?_
  rintro _ _ ⟨rfl, rfl⟩
  exact from_pure ⟨rfl, rfl⟩

theorem finds_nodeRef_bare {lines : List String} {name : String} {t : Token}
    (ht : t.content = (.identifier, name.toList)) (hname : Identifier.canonical name = .ok name)
    (hcolon : (⟨rest, last⟩ : TokenStream).current.kind ≠ .colon) :
    Finds src ⟨t :: rest, last⟩ (nodeRef lines) fun r s' =>
      r.withoutSpan = { name, docs := lines } ∧ s' = ⟨rest, last⟩ := by
  have hcanonical : Identifier.canonical t.value = .ok name := by rw [value_of_content ht, hname]
  refine (finds_nodeRef_untyped (kind_of_content ht) hcanonical hcolon).weaken ?_
  rintro _ _ ⟨rfl, rfl⟩
  exact ⟨rfl, rfl⟩

theorem finds_nodeRef_typed {lines : List String} {name : String} {t colon stop : Token}
    {taken : List Token} (ht : t.content = (.identifier, name.toList))
    (hname : Identifier.canonical name = .ok name) (hcolon : colon.kind = .colon)
    (htaken : Enclosed (taken.map Token.kind)) (hstop : stop.kind = .semicolon) :
    Finds src ⟨t :: colon :: (taken ++ stop :: rest), last⟩ (nodeRef lines) fun r s' =>
      r.withoutSpan = { name, ty := some (src.textOf taken), docs := lines } ∧
        s' = ⟨stop :: rest, last⟩ := by
  have hcanonical : Identifier.canonical t.value = .ok name := by rw [value_of_content ht, hname]
  refine (finds_nodeRef_stopped (kind_of_content ht) hcanonical hcolon (ne_nil_of_enclosed htaken)
    (upTo_of_enclosed htaken (by rw [hstop]; decide) (by rw [hstop]; nofun))).weaken ?_
  rintro _ _ ⟨rfl, rfl⟩
  exact ⟨rfl, rfl⟩

/-- A node's name and nothing else, with documentation in front of it. -/
def plainRef (lines : List String) (name : String) : NodeRef := { name, docs := lines }

/-- The contents of further names of a group. -/
def moreContents (rs : NodeGroup) : List Content :=
  rs.flatMap fun r => [(.ampersand, ['&']), (.identifier, r.name.toList)]

theorem contents_groupWords (r : NodeRef) (rs : NodeGroup) :
    (groupWords (r :: rs)).flatMap Word.contents = (.identifier, r.name.toList) :: moreContents rs := by
  rw [groupWords, List.flatMap_cons, List.flatMap_assoc]
  rfl

/-- Behind a name of a group stands an ampersand, or what stands behind the group. -/
theorem current_kind_ne_colon {rs : NodeGroup} {toks : List Token}
    (htoks : toks.map Token.content = moreContents rs)
    (hcolon : (⟨rest, last⟩ : TokenStream).current.kind ≠ .colon) :
    (⟨toks ++ rest, last⟩ : TokenStream).current.kind ≠ .colon := by
  cases rs with
  | nil =>
    rw [List.map_eq_nil_iff.mp htoks]
    exact hcolon
  | cons r rs =>
    obtain ⟨t, toks, rfl, ht, -⟩ := List.map_eq_cons_iff.mp htoks
    exact current_ne (kind_of_content ht) nofun

theorem finds_group {lines : List String} {r : NodeRef} {rs : NodeGroup} {toks : List Token}
    (htoks : toks.map Token.content = (groupWords (r :: rs)).flatMap Word.contents)
    (hnames : ∀ r' ∈ r :: rs, Identifier.canonical r'.name = .ok r'.name)
    (hcolon : (⟨rest, last⟩ : TokenStream).current.kind ≠ .colon)
    (hampersand : (⟨rest, last⟩ : TokenStream).current.kind ≠ .ampersand) :
    Finds src ⟨toks ++ rest, last⟩ (group lines) fun g s' =>
      g.map NodeRef.withoutSpan = plainRef lines r.name :: rs.map (fun r => plainRef [] r.name) ∧
        s' = ⟨rest, last⟩ := by
  rw [contents_groupWords] at htoks
  obtain ⟨t, toks, rfl, ht, hmore⟩ := List.map_eq_cons_iff.mp htoks
  obtain ⟨hname, hothers⟩ := List.forall_mem_cons.mp hnames
  unfold group
  refine (finds_nodeRef_bare ht hname (current_kind_ne_colon hmore hcolon)).bind ?_
  rintro first _ ⟨hfirst, rfl⟩
  refine finds_rounds ⟨rest, last⟩ NodeRef.withoutSpan (fun r => plainRef [] r.name)
    (fun rs s => ∃ toks, toks.map Token.content = moreContents rs ∧
      (∀ r ∈ rs, Identifier.canonical r.name = .ok r.name) ∧ s = ⟨toks ++ rest, last⟩)
    ⟨toks, hmore, hothers, rfl⟩ ?_ ?_ ?_
  · rintro acc _ ⟨toks, hmore, -, rfl⟩
    rw [List.map_eq_nil_iff.mp hmore]
    exact finds_isNotAt hampersand (from_pure ⟨rfl, rfl⟩)
  · rintro acc r rs _ ⟨toks, hmore, hothers, rfl⟩
    obtain ⟨ampersand, toks, rfl, hkind, hnext⟩ := List.map_eq_cons_iff.mp hmore
    obtain ⟨t, toks, rfl, ht, hnext⟩ := List.map_eq_cons_iff.mp hnext
    obtain ⟨hname, hothers⟩ := List.forall_mem_cons.mp hothers
    refine finds_isAt (kind_of_content hkind) (finds_advance ?_)
    refine (finds_nodeRef_bare ht hname (current_kind_ne_colon hnext hcolon)).bind ?_
    rintro next _ ⟨hr, rfl⟩
    refine from_pure ⟨next, rfl, hr, ?_, toks, hnext, hothers, rfl⟩
    simp only [List.length_append, List.length_cons]
    omega
  · intro g hg
    refine ⟨?_, rfl⟩
    rw [hg, List.map_singleton, hfirst]
    rfl

/-! ## Arrows -/

theorem inlineDocs_inlineText {lines : List String} (hne : lines ≠ []) (h : ∀ d ∈ lines, InlineDoc d) :
    inlineDocs (String.ofList (inlineText lines)) = lines := by
  have hnewline : ∀ text ∈ lines.map fun d => d.toList.drop 1, '\n' ∉ text := by
    intro text htext
    obtain ⟨d, hd, rfl⟩ := List.mem_map.mp htext
    obtain ⟨line, rfl, hline⟩ := h d hd
    rw [String.toList_append]
    exact hline
  have hspace : ∀ d ∈ lines, " " ++ String.ofList (d.toList.drop 1) = d := by
    intro d hd
    obtain ⟨line, rfl, -⟩ := h d hd
    rw [String.toList_append]
    exact congrArg _ String.ofList_toList
  rw [inlineDocs, docFragments, Text.lines, String.toList_ofList, inlineText,
    Text.fields_intercalate (by simpa using hne) hnewline, List.map_map, List.map_map]
  exact (List.map_congr_left hspace).trans (List.map_id _)

theorem finds_arrowHead {t : Token} (ht : t.kind = .arrow) :
    Finds src ⟨t :: rest, last⟩ arrowHead fun r s' => r = t ∧ s' = ⟨rest, last⟩ := by
  unfold arrowHead
  refine from_current (from_ite (fun _ => ?_) fun hother => absurd ht hother)
  rw [← bind_pure advance]
  exact finds_advance (from_pure ⟨rfl, rfl⟩)

/-- What an arrow says, with the dash and the head behind it. -/
theorem finds_label {first : Token} {form : ArrowForm} {label tail : List Token} {back : Bool}
    (htail : tail.map Token.content =
      ((if back then [Word.minus] else []) ++ [Word.arrow]).flatMap Word.contents)
    (hlabel : ∀ rest : List Token, (⟨rest, last⟩ : TokenStream).current.kind ≠ .string →
      Finds src ⟨label ++ rest, last⟩ arrowLabel fun f s' => f = form ∧ s' = ⟨rest, last⟩) :
    Finds src ⟨label ++ (tail ++ rest), last⟩ (do
      let form ← arrowLabel
      if ← isAt .minus then
        let _ ← advance
      let last ← arrowHead
      return ({ form, span := some (first.spanTo last) } : Arrow))
      fun a s' => a.withoutSpan = { form } ∧ s' = ⟨rest, last⟩ := by
  have hhead : ∀ {form : ArrowForm} {t : Token}, t.kind = .arrow → Finds src ⟨t :: rest, last⟩ (do
      let last ← arrowHead
      return ({ form, span := some (first.spanTo last) } : Arrow))
      fun a s' => a.withoutSpan = { form } ∧ s' = ⟨rest, last⟩ := by
    intro form t ht
    refine (finds_arrowHead ht).bind ?_
    rintro _ _ ⟨rfl, rfl⟩
    exact from_pure ⟨rfl, rfl⟩
  cases back with
  | true =>
    obtain ⟨minus, head, rfl, hminus, hkind⟩ := exists_pair htail
    have hnext : minus.kind = .minus := kind_of_content hminus
    refine (hlabel _ (current_ne hnext nofun)).bind ?_
    rintro _ _ ⟨rfl, rfl⟩
    exact finds_isAt hnext (finds_advance (hhead (kind_of_content hkind)))
  | false =>
    obtain ⟨head, rfl, hkind⟩ := List.map_eq_singleton_iff.mp htail
    have hnext : head.kind = .arrow := kind_of_content hkind
    refine (hlabel _ (current_ne hnext nofun)).bind ?_
    rintro _ _ ⟨rfl, rfl⟩
    exact finds_isNotAt (current_ne hnext nofun) (hhead hnext)

/-- The words of what an arrow says, the first of which is no dash and no head of an arrow, and how they
are read. -/
structure Labels (src : Source) (last : Token) (label : List Word) (form : ArrowForm) : Prop where
  head : ∀ c ∈ (label.flatMap Word.contents).head?, c.1 ≠ .arrow ∧ c.1 ≠ .minus
  nonempty : label.flatMap Word.contents ≠ []
  found : ∀ toks rest : List Token, toks.map Token.content = label.flatMap Word.contents →
    (⟨rest, last⟩ : TokenStream).current.kind ≠ .string →
      Finds src ⟨toks ++ rest, last⟩ arrowLabel fun f s' => f = form ∧ s' = ⟨rest, last⟩

theorem finds_labelled {front back : Bool} {label : List Word} {form : ArrowForm} {toks : List Token}
    (htoks : toks.map Token.content = (labelled front back label).flatMap Word.contents)
    (h : Labels src last label form) :
    Finds src ⟨toks ++ rest, last⟩ arrow fun a s' => a.withoutSpan = { form } ∧ s' = ⟨rest, last⟩ := by
  have hwords : (labelled front back label).flatMap Word.contents = (.minus, ['-']) ::
      ((if front then [Word.minus] else []).flatMap Word.contents ++ (label.flatMap Word.contents ++
        ((if back then [Word.minus] else []) ++ [Word.arrow]).flatMap Word.contents)) := by
    rw [labelled, List.flatMap_cons, List.flatMap_append, List.flatMap_append]
    rfl
  rw [hwords] at htoks
  obtain ⟨first, toks, rfl, hfirst, htoks⟩ := List.map_eq_cons_iff.mp htoks
  obtain ⟨dash, toks, rfl, hdash, htoks⟩ := List.map_eq_append_iff.mp htoks
  obtain ⟨said, tail, rfl, hsaid, htail⟩ := List.map_eq_append_iff.mp htoks
  have hkind : first.kind = .minus := kind_of_content hfirst
  have hfound := fun rest => h.found said rest hsaid
  -- The first token of what is said.
  obtain ⟨t, said, rfl⟩ : ∃ t ts, said = t :: ts := by
    refine List.exists_cons_of_ne_nil ?_
    rintro rfl
    exact h.nonempty hsaid.symm
  have ht : t.kind ≠ .arrow ∧ t.kind ≠ .minus := h.head t.content (by rw [← hsaid]; rfl)
  unfold arrow
  refine from_current ?_
  split
  · next hother => exact absurd (hkind.symm.trans hother) nofun
  · refine finds_advance ?_
    cases front with
    | true =>
      obtain ⟨minus, rfl, hminus⟩ := List.map_eq_singleton_iff.mp hdash
      have hnext : minus.kind = .minus := kind_of_content hminus
      refine finds_isNotAt (current_ne hnext nofun) (finds_isAt hnext (finds_advance ?_))
      change Finds src ⟨t :: said ++ tail ++ rest, last⟩ _ _
      rw [List.append_assoc]
      exact finds_label htail hfound
    | false =>
      rw [List.map_eq_nil_iff.mp hdash]
      change Finds src ⟨t :: said ++ tail ++ rest, last⟩ _ _
      rw [List.append_assoc]
      exact finds_isNotAt ht.1 (finds_isNotAt ht.2 (finds_label htail hfound))
  · next _ hother => exact absurd hkind hother

/-- What an arrow says after a method name. -/
theorem finds_arrowLabel_method {name : String} {t : Token} {post : ArrowForm → TokenStream → Prop}
    (hname : Identifier.MethodName name) (ht : [t].map Token.content = (method name).contents)
    (h : From may src ⟨rest, last⟩ (do
      if ← isAt .string then
        let text ← advance
        return .named name (inlineDocs text.value)
      return .named name []) post) : From may src ⟨t :: rest, last⟩ arrowLabel post := by
  obtain ⟨kind, hkind, hread⟩ := hname
  obtain ⟨rfl, -⟩ := first_of_readAs hread hkind
  have ht : t.content = (.ofWord name.toList, name.toList) := (List.cons.inj ht).1
  have htkind : t.kind.isName = true := by rw [kind_of_content ht]; exact hkind
  unfold arrowLabel
  refine finds_isNotAt (fun hstring => ?_) ?_
  · rw [show t.kind = .string from hstring] at htkind
    cases htkind
  · rw [show name = t.value from (value_of_content ht).symm] at h
    exact finds_accept htkind h

theorem head_method {name : String} (h : Identifier.MethodName name) (more : List Word) :
    ∀ c ∈ ((method name :: more).flatMap Word.contents).head?, c.1 ≠ .arrow ∧ c.1 ≠ .minus := by
  obtain ⟨kind, hkind, hread⟩ := h
  obtain ⟨rfl, -⟩ := first_of_readAs hread hkind
  rintro _ ⟨⟩
  constructor <;> rintro (hother : TokenKind.ofWord name.toList = _) <;>
    rw [hother] at hkind <;> cases hkind

theorem labels_quoted {docs : List String} (text : List Char) (hne : docs ≠ [])
    (hdocs : ∀ d ∈ docs, InlineDoc d) :
    Labels src last [quoted text (inlineText docs)] (.documented docs) where
  head := by
    rintro _ ⟨⟩
    exact ⟨nofun, nofun⟩
  nonempty := List.cons_ne_nil _ _
  found := by
    intro toks rest htoks _
    obtain ⟨t, rfl, ht⟩ := List.map_eq_singleton_iff.mp htoks
    have hvalue : t.value = String.ofList (inlineText docs) :=
      value_of_content (by rw [String.toList_ofList]; exact ht)
    unfold arrowLabel
    refine finds_isAt (kind_of_content ht) (finds_advance (from_pure ⟨?_, rfl⟩))
    rw [hvalue, inlineDocs_inlineText hne hdocs]

theorem labels_method {name : String} (hname : Identifier.MethodName name) :
    Labels src last [method name] (.named name []) where
  head := head_method hname []
  nonempty := List.cons_ne_nil _ _
  found := by
    intro toks rest htoks hstring
    obtain ⟨t, rfl, ht⟩ := List.map_eq_singleton_iff.mp htoks
    refine finds_arrowLabel_method hname (congrArg (fun c => [c]) ht) ?_
    exact finds_isNotAt hstring (from_pure ⟨rfl, rfl⟩)

theorem labels_both {name : String} {docs : List String} (text : List Char)
    (hname : Identifier.MethodName name) (hne : docs ≠ []) (hdocs : ∀ d ∈ docs, InlineDoc d) :
    Labels src last [method name, quoted text (inlineText docs)] (.named name docs) where
  head := head_method hname _
  nonempty := List.cons_ne_nil _ _
  found := by
    intro toks rest htoks _
    obtain ⟨t, string, rfl, ht, hstring⟩ := exists_pair htoks
    have hvalue : string.value = String.ofList (inlineText docs) :=
      value_of_content (by rw [String.toList_ofList]; exact hstring)
    refine finds_arrowLabel_method hname (congrArg (fun c => [c]) ht) ?_
    refine finds_isAt (kind_of_content hstring) (finds_advance (from_pure ⟨?_, rfl⟩))
    rw [hvalue, inlineDocs_inlineText hne hdocs]

theorem finds_arrow {form : ArrowForm} {ws : List Word} {toks : List Token} (h : form.Spelled ws)
    (hform : form.Writable) (htoks : toks.map Token.content = ws.flatMap Word.contents) :
    Finds src ⟨toks ++ rest, last⟩ arrow fun a s' => a.withoutSpan = { form } ∧ s' = ⟨rest, last⟩ := by
  cases h with
  | plain =>
    obtain ⟨t, rfl, ht⟩ := List.map_eq_singleton_iff.mp htoks
    unfold arrow
    refine from_current ?_
    have hkind : (TokenStream.mk ([t] ++ rest) last).current.kind = .arrow := kind_of_content ht
    rw [hkind]
    exact finds_advance (from_pure ⟨rfl, rfl⟩)
  | long =>
    obtain ⟨t, head, rfl, ht, hhead⟩ := exists_pair htoks
    unfold arrow
    refine from_current ?_
    have hkind : (TokenStream.mk ([t, head] ++ rest) last).current.kind = .minus := kind_of_content ht
    rw [hkind]
    refine finds_advance (finds_isAt (kind_of_content hhead) ?_)
    exact finds_advance (from_pure ⟨rfl, rfl⟩)
  | documented front back htext => exact finds_labelled htoks (labels_quoted _ hform.1 hform.2)
  | named name front back => exact finds_labelled htoks (labels_method hform.1)
  | both front back hne htext => exact finds_labelled htoks (labels_both _ hform.1 hne hform.2)

/-! ## Chains -/

/-- An arrow starts with a dash or a head. -/
theorem head_arrow {form : ArrowForm} {ws : List Word} (h : form.Spelled ws) :
    ∃ c cs, ws.flatMap Word.contents = c :: cs ∧ (c.1 = .arrow ∨ c.1 = .minus) := by
  cases h with
  | plain => exact ⟨_, _, rfl, Or.inl rfl⟩
  | long => exact ⟨_, _, rfl, Or.inr rfl⟩
  | documented => exact ⟨_, _, rfl, Or.inr rfl⟩
  | named => exact ⟨_, _, rfl, Or.inr rfl⟩
  | both => exact ⟨_, _, rfl, Or.inr rfl⟩

theorem head_steps {steps : List (Arrow × NodeGroup)} {ws : List Word} {toks : List Token}
    (h : StepsSpelled steps ws) (hne : steps ≠ [])
    (htoks : toks.map Token.content = ws.flatMap Word.contents) :
    ∃ t ts, toks = t :: ts ∧ (t.kind = .arrow ∨ t.kind = .minus) := by
  cases h with
  | nil => exact absurd rfl hne
  | cons harrow _ =>
    obtain ⟨c, cs, hc, hkind⟩ := head_arrow harrow
    rw [List.flatMap_append, hc] at htoks
    obtain ⟨t, ts, rfl, ht, -⟩ := List.map_eq_cons_iff.mp htoks
    rw [← kind_of_content ht] at hkind
    exact ⟨t, ts, rfl, hkind⟩

/-- Behind a position of a chain stands an arrow or the semicolon. -/
theorem current_kind_steps {steps : List (Arrow × NodeGroup)} {ws : List Word} {toks : List Token}
    {stop : Token} (h : StepsSpelled steps ws) (htoks : toks.map Token.content = ws.flatMap Word.contents)
    (hstop : stop.kind = .semicolon) :
    (⟨toks ++ stop :: rest, last⟩ : TokenStream).current.kind ∈ typeStops := by
  rcases eq_or_ne steps [] with rfl | hne
  · cases h
    rw [List.map_eq_nil_iff.mp htoks]
    change stop.kind ∈ typeStops
    rw [hstop]
    decide
  · obtain ⟨t, ts, rfl, hkind⟩ := head_steps h hne htoks
    change t.kind ∈ typeStops
    rcases hkind with hkind | hkind <;> rw [hkind] <;> decide

theorem ne_of_mem_typeStops {k : TokenKind} (h : k ∈ typeStops) : k ≠ .colon ∧ k ≠ .ampersand := by
  constructor <;> rintro rfl <;> exact absurd h (by decide)

theorem map_plainRef {g : NodeGroup} (h : ∀ r ∈ g, r.ty = none ∧ r.docs = []) :
    g.map (fun r => plainRef [] r.name) = g.map NodeRef.withoutSpan := by
  refine List.map_congr_left fun r hr => ?_
  obtain ⟨hty, hdocs⟩ := h r hr
  rw [plainRef, NodeRef.withoutSpan, hty, hdocs]

/-- A position behind an arrow. -/
theorem finds_target {g : NodeGroup} {toks : List Token} (hg : g.Writable)
    (htoks : toks.map Token.content = (groupWords g).flatMap Word.contents)
    (hstop : (⟨rest, last⟩ : TokenStream).current.kind ∈ typeStops) :
    Finds src ⟨toks ++ rest, last⟩ group fun g' s' =>
      g'.map NodeRef.withoutSpan = g.map NodeRef.withoutSpan ∧ s' = ⟨rest, last⟩ := by
  obtain ⟨r, rs, rfl⟩ := List.exists_cons_of_ne_nil hg.nonempty
  obtain ⟨hcolon, hampersand⟩ := ne_of_mem_typeStops hstop
  refine (finds_group htoks (fun r' hr' => (hg.names r' hr').canonical) hcolon hampersand).weaken ?_
  rintro g' _ ⟨hg', rfl⟩
  exact ⟨hg'.trans (map_plainRef hg.bare), rfl⟩

theorem finds_chainRest {steps : List (Arrow × NodeGroup)} {ws : List Word} {toks : List Token}
    {stop : Token} (h : StepsSpelled steps ws) (htoks : toks.map Token.content = ws.flatMap Word.contents)
    (hsteps : ∀ step ∈ steps, StepWritable step) (hstop : stop.kind = .semicolon) :
    Finds src ⟨toks ++ stop :: rest, last⟩ chainRest fun found s' =>
      found.map stepWithoutSpans = steps.map stepWithoutSpans ∧ s' = ⟨stop :: rest, last⟩ := by
  unfold chainRest
  refine finds_rounds ⟨stop :: rest, last⟩ stepWithoutSpans stepWithoutSpans
    (fun steps s => ∃ ws toks, StepsSpelled steps ws ∧ toks.map Token.content = ws.flatMap Word.contents ∧
      (∀ step ∈ steps, StepWritable step) ∧ s = ⟨toks ++ stop :: rest, last⟩)
    ⟨ws, toks, h, htoks, hsteps, rfl⟩ ?_ ?_ fun found hfound => ⟨hfound, rfl⟩
  · rintro acc _ ⟨ws, toks, ⟨⟩, htoks, -, rfl⟩
    rw [List.map_eq_nil_iff.mp htoks]
    exact finds_isAt hstop (from_pure ⟨rfl, rfl⟩)
  · rintro acc ⟨a, g⟩ steps _ ⟨_, toks, h, htoks, hsteps, rfl⟩
    obtain ⟨⟨hform, htarget, hone⟩, hsteps⟩ := List.forall_mem_cons.mp hsteps
    obtain ⟨⟩ | @⟨_, _, _, ws, ws', harrow, hrest⟩ := h
    rw [List.flatMap_append, List.flatMap_append] at htoks
    obtain ⟨said, toks, rfl, hsaid, htoks⟩ := List.map_eq_append_iff.mp htoks
    obtain ⟨names, more, rfl, hnames, hmore⟩ := List.map_eq_append_iff.mp htoks
    obtain ⟨c, cs, hc, hkind⟩ := head_arrow harrow
    obtain ⟨t, ts, rfl, ht, -⟩ := List.map_eq_cons_iff.mp (hsaid.trans hc)
    have hbegins : t.kind ≠ .semicolon := by
      rw [kind_of_content ht]
      rcases hkind with hkind | hkind <;> rw [hkind] <;> nofun
    refine finds_isNotAt hbegins ?_
    rw [List.append_assoc, List.append_assoc]
    refine (finds_arrow harrow hform hsaid).bind ?_
    rintro a' _ ⟨ha, rfl⟩
    refine from_current ((finds_target htarget hnames (current_kind_steps hrest hmore hstop)).bind ?_)
    rintro g' _ ⟨hg, rfl⟩
    have hnamed : a'.isNamed = a.isNamed := by
      have hform : a'.form = a.form := (Arrow.mk.inj ha).1
      rw [Arrow.isNamed, Arrow.isNamed, Arrow.method?, Arrow.method?, hform]
    have hmany : NodeGroup.isMany g' = NodeGroup.isMany g := by
      have hlength := congrArg List.length hg
      rw [List.length_map, List.length_map] at hlength
      rw [NodeGroup.isMany, NodeGroup.isMany, hlength]
    refine from_ite (fun hrefused => ?_) fun _ =>
      from_pure ⟨(a', g'), rfl, Prod.ext ha hg, ?_, ws', more, hrest, hmore, hsteps, rfl⟩
    · rw [Bool.and_eq_true, hnamed, hmany] at hrefused
      exact absurd hrefused.2 (by rw [hone hrefused.1]; nofun)
    · simp only [List.length_append, List.length_cons]
      omega

end Parser

end Typestate
