import Typestate.Grammar.Header
import Typestate.Proofs.Grammar.Paths

/-!
What stands in front of statements and machines: documentation and attributes. Square brackets are counted to
find the end of an attribute that is kept, and again to look past one, and both counts come to the same token
(`AttributeTokens.afterPreamble_append`). Documentation and options have a grammar of their own, but whatever
is read takes whole attributes (`Parser.docs_derived`, `Parser.settings_attribute`,
`Parser.verbatimAttribute_taken`).
-/

namespace Typestate

/-! ## The tokens -/

/-- The tokens of an attribute: a `#`, an opening bracket, and all up to the bracket that closes it. -/
structure AttributeTokens (taken : List Token) : Prop where
  shape : ∃ first opening body, taken = first :: opening :: body ∧ first.kind = .pound ∧
    opening.kind = .leftBracket ∧ closeBracket 0 body = some (body, [])

/-- The text of documentation, which is a comment or an attribute. -/
inductive DocDerived : List Token → String → Prop
  | comment {t : Token} (hkind : t.kind = .doc) : DocDerived [t] t.value
  | assigned {pound opening name equals text closing : Token} (hpound : pound.kind = .pound)
    (hopening : opening.kind = .leftBracket) (hname : name.kind = .identifier)
    (hdoc : name.value = "doc") (hequals : equals.kind = .equals) (htext : text.kind = .string)
    (hclosing : closing.kind = .rightBracket) :
    DocDerived [pound, opening, name, equals, text, closing] text.value

/-- The lines of several texts. -/
def docLines (texts : List String) : List String := texts.flatMap docFragments

/-- Documentation and attributes in any order, whatever the attributes say. -/
inductive OuterTokens : List Token → Prop
  | nil : OuterTokens []
  | doc {t : Token} {more : List Token} (hkind : t.kind = .doc) (hmore : OuterTokens more) :
    OuterTokens (t :: more)
  | bracketed {ts more : List Token} (h : AttributeTokens ts) (hmore : OuterTokens more) :
    OuterTokens (ts ++ more)

theorem AttributeTokens.ne_nil {ts : List Token} (h : AttributeTokens ts) : ts ≠ [] := by
  obtain ⟨first, opening, body, rfl, -⟩ := h.shape
  exact List.cons_ne_nil _ _

/-! ## Tokens without square brackets -/

/-- No square bracket is among the tokens. -/
def Bracketless (ts : List Token) : Prop := ∀ t ∈ ts, t.kind ≠ .leftBracket ∧ t.kind ≠ .rightBracket

namespace Bracketless

variable {ts us : List Token} {t : Token}

theorem nil : Bracketless [] := List.forall_mem_nil _

theorem cons {kind : TokenKind} (ht : t.kind = kind) (hkind : kind ∉ [.leftBracket, .rightBracket])
    (h : Bracketless ts) : Bracketless (t :: ts) := by
  subst ht
  exact List.forall_mem_cons.mpr ⟨by simpa using hkind, h⟩

theorem append (h : Bracketless ts) (h' : Bracketless us) : Bracketless (ts ++ us) :=
  List.forall_mem_append.mpr ⟨h, h'⟩

end Bracketless

/-! ## The bracket that closes an attribute -/

theorem Bracketless.closes {inner : List Token} {closing : Token} (h : Bracketless inner)
    (hclosing : closing.kind = .rightBracket) : ClosesBracket 0 (inner ++ [closing]) := by
  induction inner with
  | nil => exact .last hclosing
  | cons t inner ih =>
    obtain ⟨⟨hopens, hcloses⟩, hinner⟩ := List.forall_mem_cons.mp h
    exact .other hopens hcloses (ih hinner)

/-- An attribute without square brackets inside. -/
theorem attributeTokens_of_bracketless {first opening closing : Token} {inner : List Token}
    (hfirst : first.kind = .pound) (hopening : opening.kind = .leftBracket) (hinner : Bracketless inner)
    (hclosing : closing.kind = .rightBracket) :
    AttributeTokens (first :: opening :: (inner ++ [closing])) :=
  ⟨first, opening, _, rfl, hfirst, hopening,
    closeBracket_eq_some_iff.mpr ⟨(List.append_nil _).symm, hinner.closes hclosing⟩⟩

/-- One step more into the brackets, and both counts end behind the same bracket. -/
theorem ClosesBracket.afterPreamble_append {depth : Nat} {taken : List Token} (h : ClosesBracket depth taken)
    (rest : List Token) : afterPreamble (some (depth + 1)) (taken ++ rest) = afterPreamble none rest := by
  induction h with
  | last hkind => simp [afterPreamble, hkind]
  | opening hkind _ ih => simp [afterPreamble, hkind, ih]
  | closing hkind _ ih => simp [afterPreamble, hkind, ih]
  | other _ _ _ ih => simp [afterPreamble, ih]

/-- **An attribute is passed.** What stands behind a preamble is the same with the tokens of an attribute in front. -/
theorem AttributeTokens.afterPreamble_append {ts : List Token} (h : AttributeTokens ts) (rest : List Token) :
    afterPreamble none (ts ++ rest) = afterPreamble none rest := by
  obtain ⟨first, opening, body, rfl, hfirst, hopening, hclosed⟩ := h.shape
  have hnext : ((opening :: body ++ rest).head?.any (·.kind == .leftBracket)) = true := by
    rw [List.cons_append, List.head?_cons, Option.any_some, hopening]
    rfl
  rw [List.cons_append, afterPreamble, hfirst]
  dsimp only
  rw [if_pos hnext, List.cons_append, afterPreamble, hopening]
  exact (closeBracket_eq_some_iff.mp hclosed).2.afterPreamble_append rest

namespace OuterTokens

variable {ts us : List Token}

theorem append (h : OuterTokens ts) (h' : OuterTokens us) : OuterTokens (ts ++ us) := by
  induction h with
  | nil => exact h'
  | doc hkind _ ih => exact .doc hkind ih
  | bracketed hattribute _ ih =>
    rw [List.append_assoc]
    exact .bracketed hattribute ih

theorem of_attribute (h : AttributeTokens ts) : OuterTokens ts := by
  rw [← List.append_nil ts]
  exact .bracketed h .nil

theorem of_docDerived {text : String} (h : DocDerived ts text) : OuterTokens ts := by
  cases h with
  | comment hkind => exact .doc hkind .nil
  | assigned hpound hopening hname _ hequals htext hclosing =>
    have hinner : Bracketless [_, _, _] :=
      .cons hname (by decide) (.cons hequals (by decide) (.cons htext (by decide) .nil))
    exact of_attribute (attributeTokens_of_bracketless hpound hopening hinner hclosing)

theorem of_docs {texts : List String} (h : Many DocDerived ts texts) : OuterTokens ts := by
  induction h with
  | nil => exact .nil
  | cons hdoc _ ih => exact (of_docDerived hdoc).append ih

/-- **What is passed.** What stands behind a preamble is the same with documentation and attributes in front, in any
order. -/
theorem afterPreamble_append (h : OuterTokens ts) (rest : List Token) :
    afterPreamble none (ts ++ rest) = afterPreamble none rest := by
  induction h with
  | nil => rfl
  | doc hkind _ ih =>
    rw [List.cons_append, afterPreamble, hkind]
    exact ih
  | bracketed hattribute _ ih => rw [List.append_assoc, hattribute.afterPreamble_append, ih]

end OuterTokens

/-- Nothing is passed in front of any other token. -/
theorem afterPreamble_cons {t : Token} (hdoc : t.kind ≠ .doc) (hpound : t.kind ≠ .pound) (rest : List Token) :
    afterPreamble none (t :: rest) = t :: rest := by
  rw [afterPreamble]
  split
  · next hkind => exact absurd hkind hdoc
  · next hkind => exact absurd hkind hpound
  · rfl

theorem afterPreamble_of_current {s : TokenStream} (hdoc : s.current.kind ≠ .doc)
    (hpound : s.current.kind ≠ .pound) : afterPreamble none s.ahead = s.ahead := by
  obtain ⟨_ | ⟨t, rest⟩, last⟩ := s
  · rfl
  · exact afterPreamble_cons hdoc hpound rest

namespace Parser

open TokenStream

variable {src : Source} {s : TokenStream}

/-! ## Documentation -/

theorem docAttribute_derived (hs : s.Ended) (hdoc : s.startsDocAttribute = true) :
    Proceeds src s docAttribute fun text s' => ∃ ts, DocDerived ts text ∧ ts ≠ [] ∧ Passes ts s s' := by
  unfold docAttribute
  refine proceeds_expect hs nofun fun pound s₁ h₁ hs₁ hpound => ?_
  refine proceeds_expect hs₁ nofun fun opening s₂ h₂ hs₂ hopening => ?_
  refine proceeds_expect hs₂ nofun fun name s₃ h₃ hs₃ hname => ?_
  refine proceeds_expect hs₃ nofun fun equals s₄ h₄ hs₄ hequals => ?_
  refine proceeds_expect hs₄ nofun fun text s₅ h₅ hs₅ htext => ?_
  refine proceeds_expect hs₅ nofun fun closing s₆ h₆ _ hclosing => ?_
  have hvalue : name.value = "doc" := by
    simp only [startsDocAttribute, startsAttribute, Bool.and_eq_true, beq_iff_eq] at hdoc
    rw [← h₃.current_eq, h₂.current, h₁.peek]
    exact hdoc.1.2
  refine from_pure ⟨_, .assigned hpound hopening hname hvalue hequals htext hclosing, nofun, ?_⟩
  exact h₁.trans_passes (h₂.trans_passes (h₃.trans_passes (h₄.trans_passes
    (h₅.trans_passes h₆.passes))))

theorem docLines_concat (texts : List String) (text : String) :
    docLines (texts ++ [text]) = docLines texts ++ docFragments text := by
  rw [docLines, List.flatMap_append, List.flatMap_singleton, docLines]

theorem docs_derived (hs : s.Ended) :
    Proceeds src s docs fun lines s' =>
      ∃ ts texts, Many DocDerived ts texts ∧ lines = docLines texts ∧ Passes ts s s' := by
  unfold docs
  refine from_rounds (fun lines s' => ∃ ts texts, Many DocDerived ts texts ∧ lines = docLines texts ∧
    Passes ts s s') ?_ ⟨[], [], .nil, rfl, Passes.refl s⟩
  rintro _ s₁ ⟨ts, texts, hmany, rfl, h₁⟩
  have hs₁ : s₁.Ended := h₁.ended hs
  refine from_current ?_
  split
  · next hkind =>
    refine proceeds_advance hs₁ (by rw [hkind]; nofun) fun s₂ h₂ _ => from_pure ⟨?_, h₂.moves.fewer⟩
    exact ⟨_, _, hmany.concat (.comment hkind), (docLines_concat ..).symm, h₁.trans h₂.passes⟩
  · refine from_get (from_ite (fun hdoc => ?_) fun _ => proceeds_fail nofun)
    refine (docAttribute_derived hs₁ hdoc).bind fun text s₂ ⟨item, hitem, hne, h₂⟩ => ?_
    refine from_pure ⟨?_, h₂.fewer hne⟩
    exact ⟨_, _, hmany.concat hitem, (docLines_concat ..).symm, h₁.trans h₂⟩
  · exact from_pure ⟨ts, texts, hmany, rfl, h₁⟩

/-! ## Attributes -/

theorem verbatimAttribute_taken (hs : s.Ended) :
    Proceeds src s verbatimAttribute fun text s' =>
      ∃ taken, AttributeTokens taken ∧ Passes taken s s' ∧ text = src.textOf taken := by
  unfold verbatimAttribute
  refine proceeds_expect hs nofun fun first s₁ h₁ hs₁ hfirst => ?_
  refine proceeds_expect hs₁ nofun fun opening s₂ h₂ hs₂ hopening => from_get ?_
  split
  · next body rest hclosed =>
    obtain ⟨hahead, hcloses⟩ := closeBracket_eq_some_iff.mp hclosed
    have hbody : closeBracket 0 body = some (body, []) :=
      closeBracket_eq_some_iff.mpr ⟨(List.append_nil body).symm, hcloses⟩
    have hpasses : Passes body s₂ { s₂ with ahead := rest } := ⟨rfl, hahead⟩
    refine from_set (from_read (from_pure ⟨first :: opening :: body, ?_, ?_, rfl⟩))
    · exact ⟨first, opening, body, rfl, hfirst, hopening, hbody⟩
    · exact h₁.trans_passes (h₂.trans_passes hpasses)
  · exact from_set (proceeds_fail nofun)

theorem bracketless_path {ts : List Token} {path : String} (h : PathDerived ts path) : Bracketless ts := by
  have hnames : ∀ {more : List Token} {names : List String}, Many FurtherName more names → Bracketless more := by
    intro more names hmore
    induction hmore with
    | nil => exact .nil
    | cons hname _ ih =>
      obtain ⟨hseparator, hkind⟩ := hname
      exact .cons hseparator (by decide) (.cons hkind (by decide) ih)
  obtain ⟨hroot, hkind, hmore⟩ := h
  have hname := Bracketless.cons hkind (by decide) (hnames hmore)
  cases hroot with
  | none => exact hname
  | separator hseparator => exact .cons hseparator (by decide) hname

theorem bracketless_visibility {ts : List Token} {vis : String} (h : VisibilityDerived ts vis) :
    Bracketless ts := by
  cases h with
  | none => exact .nil
  | everywhere hword => exact .cons hword (by decide) .nil
  | only hword hopening hscope _ hclosing =>
    exact .cons hword (by decide) (.cons hopening (by decide) (.cons hscope (by decide)
      (.cons hclosing (by decide) .nil)))
  | within hword hopening hscope _ hpath hclosing =>
    exact .cons hword (by decide) (.cons hopening (by decide) (.cons hscope (by decide)
      ((bracketless_path hpath).append (.cons hclosing (by decide) .nil))))

theorem truthValue_bracketless (hs : s.Ended) :
    Proceeds src s truthValue fun _ s' => ∃ ts, Bracketless ts ∧ Passes ts s s' := by
  unfold truthValue
  refine from_current ?_
  split
  · next hkind =>
    refine proceeds_advance hs (by rw [hkind]; nofun) fun s₁ h₁ _ => from_pure ?_
    exact ⟨_, .cons hkind (by decide) .nil, h₁.passes⟩
  · next hkind =>
    refine proceeds_advance hs (by rw [hkind]; nofun) fun s₁ h₁ _ => from_pure ?_
    exact ⟨_, .cons hkind (by decide) .nil, h₁.passes⟩
  · exact proceeds_fail nofun

theorem settingValue_bracketless {key : String} {value : Parser (List Setting)}
    (h : settingValue key = some value) (hs : s.Ended) :
    Proceeds src s value fun _ s' => ∃ ts, Bracketless ts ∧ Passes ts s s' := by
  unfold settingValue at h
  split at h <;> cases h
  · refine (visibility_derived hs).bind fun vis s₁ ⟨front, hvis, h₁⟩ => ?_
    refine proceeds_expect (h₁.ended hs) nofun fun name s₂ h₂ _ hname => from_pure ⟨_, ?_, h₁.trans h₂.passes⟩
    exact (bracketless_visibility hvis).append (.cons hname (by decide) .nil)
  · exact (truthValue_bracketless hs).bind fun _ _ h₁ => from_pure h₁
  · exact (modulePath_derived hs).bind fun _ _ ⟨ts, hpath, h₁⟩ => from_pure ⟨ts, bracketless_path hpath, h₁⟩
  · exact (truthValue_bracketless hs).bind fun _ _ h₁ => from_pure h₁
  · exact (truthValue_bracketless hs).bind fun _ _ h₁ => from_pure h₁

theorem setting_bracketless (p : Preamble) (hs : s.Ended) :
    Proceeds src s (setting p) fun p' s' =>
      (∃ ts, ts ≠ [] ∧ Bracketless ts ∧ Passes ts s s') ∧ p'.attrs = p.attrs := by
  unfold setting
  refine proceeds_expect hs nofun fun key s₁ h₁ hs₁ hkey => ?_
  split
  · exact proceeds_fail nofun
  · next value hvalue =>
    refine from_ite (fun _ => from_fail_bind nofun) fun _ => ?_
    refine proceeds_isAt_advance hs₁ nofun (fun equals s₂ h₂ hs₂ hequals => ?_) ?_
    · refine (settingValue_bracketless hvalue hs₂).bind fun _ s₃ ⟨ts, hts, h₃⟩ => from_pure ⟨?_, rfl⟩
      have htaken : Passes (key :: equals :: ts) s s₃ := h₁.trans_passes (h₂.trans_passes h₃)
      exact ⟨_, List.cons_ne_nil _ _, .cons hkey (by decide) (.cons hequals (by decide) hts), htaken⟩
    · refine proceeds_expect hs₁ nofun fun opening s₂ h₂ hs₂ hopening => ?_
      refine (settingValue_bracketless hvalue hs₂).bind fun _ s₃ ⟨ts, hts, h₃⟩ => ?_
      refine proceeds_expect (h₃.ended hs₂) nofun fun closing s₄ h₄ _ hclosing => from_pure ⟨?_, rfl⟩
      have htaken : Passes (key :: opening :: (ts ++ [closing])) s s₄ :=
        h₁.trans_passes (h₂.trans_passes (h₃.trans h₄.passes))
      have hvalue : Bracketless (ts ++ [closing]) := hts.append (.cons hclosing (by decide) .nil)
      exact ⟨_, List.cons_ne_nil _ _, .cons hkey (by decide) (.cons hopening (by decide) hvalue), htaken⟩

theorem settings_attribute (p : Preamble) (hs : s.Ended) :
    Proceeds src s (settings p) fun p' s' =>
      ∃ ts, AttributeTokens ts ∧ Passes ts s s' ∧ p'.attrs = p.attrs := by
  unfold settings
  refine proceeds_expect hs nofun fun pound s₁ h₁ hs₁ hpound => ?_
  refine proceeds_expect hs₁ nofun fun bracket s₂ h₂ hs₂ hbracket => ?_
  refine proceeds_expect hs₂ nofun fun name s₃ h₃ hs₃ hname => ?_
  refine proceeds_expect hs₃ nofun fun opening s₄ h₄ hs₄ hopening => ?_
  refine From.bind ?_ fun p₅ s₅ (h₅ : (∃ ts, Bracketless ts ∧ Passes ts s₄ s₅) ∧ p₅.attrs = p.attrs) => ?_
  · refine from_rounds (fun p' s' => (∃ ts, Bracketless ts ∧ Passes ts s₄ s') ∧ p'.attrs = p.attrs) ?_
      ⟨⟨[], .nil, Passes.refl s₄⟩, rfl⟩
    rintro p₅ s₅ ⟨⟨ts, hts, h₅⟩, hattrs⟩
    refine proceeds_isAt (fun _ => from_pure ⟨⟨ts, hts, h₅⟩, hattrs⟩) ?_
    refine (setting_bracketless p₅ (h₅.ended hs₄)).bind fun p₆ s₆ ⟨⟨more, hne, hmore, h₆⟩, hsame⟩ => ?_
    have hset : Passes (ts ++ more) s₄ s₆ := h₅.trans h₆
    refine proceeds_isAt_advance (hset.ended hs₄) nofun (fun comma s₇ h₇ _ hcomma => ?_) ?_
    · refine from_pure ⟨⟨⟨_, ?_, hset.trans h₇.passes⟩, hsame.trans hattrs⟩, ?_⟩
      · exact (hts.append hmore).append (.cons hcomma (by decide) .nil)
      · exact (h₆.trans h₇.passes).fewer (by simp)
    · exact from_pure ⟨⟨_, hts.append hmore, hset⟩, hsame.trans hattrs⟩
  obtain ⟨⟨ts, hts, h₅⟩, hattrs⟩ := h₅
  refine proceeds_expect (h₅.ended hs₄) nofun fun closing s₆ h₆ hs₆ hclosing => ?_
  refine proceeds_expect hs₆ nofun fun close s₇ h₇ _ hclose => from_pure ?_
  have hinner : Bracketless (name :: opening :: (ts ++ [closing])) :=
    .cons hname (by decide) (.cons hopening (by decide) (hts.append (.cons hclosing (by decide) .nil)))
  have hinnerTaken : Passes (name :: opening :: (ts ++ [closing])) s₂ s₆ :=
    h₃.trans_passes (h₄.trans_passes (h₅.trans h₆.passes))
  exact ⟨_, attributeTokens_of_bracketless hpound hbracket hinner hclose,
    h₁.trans_passes (h₂.trans_passes (hinnerTaken.trans h₇.passes)), hattrs⟩

end Parser

end Typestate
