import Typestate.Proofs.Grammar.TypeEnd

/-!
Brackets in captured text. A single depth says where captured text ends, so the brackets of what is taken are
properly nested as long as their kinds are left aside. They are nested by kind exactly if any two brackets that
the depth takes for partners are of one kind (`Parser.textUpTo_nested_iff`), which nothing checks: `(u8]` is
captured like `(u8)` (`mixed_captured`).
-/

namespace Typestate

/-- The kind of bracket that closes one of this kind. -/
def TokenKind.counterpart : TokenKind → Option TokenKind
  | lessThan => some greaterThan
  | leftParen => some rightParen
  | leftBracket => some rightBracket
  | leftBrace => some rightBrace
  | _ => none

/-! ## Nesting -/

/-- Tokens in which every bracket is opened and closed, each by a bracket that fits. -/
inductive Nested (fits : TokenKind → TokenKind → Prop) : List TokenKind → Prop
  | nil : Nested fits []
  | other {kind : TokenKind} {kinds : List TokenKind} (hopening : kind.isOpening = false)
    (hclosing : kind.isClosing = false) (hrest : Nested fits kinds) : Nested fits (kind :: kinds)
  | pair {opening closing : TokenKind} {inner rest : List TokenKind} (hopening : opening.isOpening = true)
    (hclosing : closing.isClosing = true) (hfits : fits opening closing) (hinner : Nested fits inner)
    (hrest : Nested fits rest) : Nested fits (opening :: (inner ++ closing :: rest))

/-- The brackets are nested if their kinds are left aside. -/
abbrev NestedAlike (kinds : List TokenKind) : Prop := Nested (fun _ _ => True) kinds

/-- The brackets are nested by kind. -/
abbrev NestedByKind (kinds : List TokenKind) : Prop :=
  Nested (fun opening closing => opening.counterpart = some closing) kinds

/-- The two brackets stand around tokens that are nested if kinds are left aside. -/
structure Partners (kinds : List TokenKind) (first last : TokenKind) : Prop where
  opening : first.isOpening = true
  closing : last.isClosing = true
  around : ∃ front inner back, kinds = front ++ first :: (inner ++ last :: back) ∧ NestedAlike inner

namespace Nested

variable {fits fits' : TokenKind → TokenKind → Prop} {kinds inner inner' back back' : List TokenKind}
  {first last last' : TokenKind}

theorem mono (h : Nested fits kinds) (hfits : ∀ first last, fits first last → fits' first last) :
    Nested fits' kinds := by
  induction h with
  | nil => exact .nil
  | other hopening hclosing _ ih => exact .other hopening hclosing ih
  | pair hopening hclosing hpair _ _ ihinner ihrest =>
    exact .pair hopening hclosing (hfits _ _ hpair) ihinner ihrest

/-- The bracket that closes none of those in front of it is found in one way. -/
theorem unique (h : Nested fits inner) (h' : Nested fits' inner') (hlast : last.isClosing = true)
    (hlast' : last'.isClosing = true) (heq : inner ++ last :: back = inner' ++ last' :: back') :
    inner = inner' ∧ last = last' ∧ back = back' := by
  induction h generalizing inner' last last' back back' with
  | nil =>
    cases h' with
    | nil => exact ⟨rfl, List.cons.inj heq⟩
    | other hopening hclosing =>
      rw [(List.cons.inj heq).1, hclosing] at hlast
      cases hlast
    | pair hopening =>
      have hfirst := TokenKind.not_isOpening_of_isClosing hlast
      rw [(List.cons.inj heq).1, hopening] at hfirst
      cases hfirst
  | other hopening hclosing _ ih =>
    cases h' with
    | nil =>
      rw [← (List.cons.inj heq).1, hclosing] at hlast'
      cases hlast'
    | other _ _ hrest' =>
      obtain ⟨rfl, hbehind⟩ := List.cons.inj heq
      obtain ⟨rfl, hsame⟩ := ih hrest' hlast hlast' hbehind
      exact ⟨rfl, hsame⟩
    | pair hopening' =>
      rw [(List.cons.inj heq).1, hopening'] at hopening
      cases hopening
  | pair hopening hclosing _ _ _ ihinner ihrest =>
    cases h' with
    | nil =>
      have hfirst := TokenKind.not_isOpening_of_isClosing hlast'
      rw [← (List.cons.inj heq).1, hopening] at hfirst
      cases hfirst
    | other hopening' =>
      rw [(List.cons.inj heq).1, hopening'] at hopening
      cases hopening
    | pair _ hclosing' _ hinner' hrest' =>
      simp only [List.cons_append, List.append_assoc] at heq
      obtain ⟨rfl, hbehind⟩ := List.cons.inj heq
      obtain ⟨rfl, rfl, houter⟩ := ihinner hinner' hclosing hclosing' hbehind
      obtain ⟨rfl, hsame⟩ := ihrest hrest' hlast hlast' houter
      exact ⟨rfl, hsame⟩

/-- Every bracket that opens has one behind it that closes it and fits. -/
theorem exists_partner (h : Nested fits kinds) {front more : List TokenKind}
    (heq : kinds = front ++ first :: more) (hfirst : first.isOpening = true) :
    ∃ inner last back, more = inner ++ last :: back ∧ Nested fits inner ∧ last.isClosing = true ∧
      fits first last := by
  induction h generalizing front more with
  | nil => exact absurd heq (by simp)
  | other hopening _ _ ih =>
    cases front with
    | nil =>
      rw [(List.cons.inj heq).1, hfirst] at hopening
      cases hopening
    | cons kind front => exact ih (List.cons.inj heq).2
  | @pair first' last' inner rest hopening hclosing hfits hinner hrest ihinner ihrest =>
    cases front with
    | nil =>
      obtain ⟨rfl, rfl⟩ := List.cons.inj heq
      exact ⟨inner, last', rest, rfl, hinner, hclosing, hfits⟩
    | cons kind front =>
      have hother : first ≠ last' := by
        rintro rfl
        rw [TokenKind.not_isOpening_of_isClosing hclosing] at hfirst
        cases hfirst
      rcases List.append_eq_append_iff.mp (List.cons.inj heq).2 with ⟨between, rfl, hbehind⟩ | ⟨between, rfl, hbehind⟩
      · -- The bracket stands behind the pair.
        cases between with
        | nil => exact absurd (List.cons.inj hbehind).1.symm hother
        | cons _ between => exact ihrest (List.cons.inj hbehind).2
      · -- It stands inside, and so does the one that closes it.
        cases between with
        | nil => exact absurd (List.cons.inj hbehind).1 hother
        | cons _ between =>
          obtain ⟨rfl, rfl⟩ := List.cons.inj hbehind
          obtain ⟨inside, last, back, rfl, hinside⟩ := ihinner rfl
          exact ⟨inside, last, back ++ last' :: rest, by simp, hinside⟩

/-- **Partners.** Brackets are nested so that they fit if they are nested with their kinds left aside, and all
partners fit. -/
theorem iff_partners : Nested fits kinds ↔
    NestedAlike kinds ∧ ∀ first last, Partners kinds first last → fits first last := by
  constructor
  · intro h
    refine ⟨h.mono fun _ _ _ => trivial, fun first last hpartners => ?_⟩
    obtain ⟨front, inner, back, heq, hinner⟩ := hpartners.around
    obtain ⟨inner', last', back', hmore, hinner', hlast', hfits⟩ := h.exists_partner heq hpartners.opening
    obtain ⟨-, rfl, -⟩ := hinner.unique hinner' hpartners.closing hlast' hmore
    exact hfits
  · rintro ⟨h, hpartners⟩
    induction h with
    | nil => exact .nil
    | @other kind kinds hopening hclosing _ ih =>
      refine .other hopening hclosing (ih fun first last hinside => hpartners first last ?_)
      obtain ⟨front, inner, back, rfl, hinner⟩ := hinside.around
      exact ⟨hinside.opening, hinside.closing, kind :: front, inner, back, rfl, hinner⟩
    | @pair first last inner rest hopening hclosing _ hinner _ ihinner ihrest =>
      refine .pair hopening hclosing (hpartners first last ⟨hopening, hclosing, [], inner, rest, rfl, hinner⟩)
        (ihinner fun first' last' hinside => hpartners first' last' ?_)
        (ihrest fun first' last' hbehind => hpartners first' last' ?_)
      · obtain ⟨front, inner', back, rfl, hinner'⟩ := hinside.around
        exact ⟨hinside.opening, hinside.closing, first :: front, inner', back ++ last :: rest, by simp, hinner'⟩
      · obtain ⟨front, inner', back, rfl, hinner'⟩ := hbehind.around
        exact ⟨hbehind.opening, hbehind.closing, first :: (inner ++ last :: front), inner', back, by simp, hinner'⟩

end Nested

/-! ## The depth -/

/-- The tokens close some brackets that were opened in front of them, and others are nested between. -/
def Closing : (depth : Nat) → List TokenKind → Prop
  | 0, kinds => NestedAlike kinds
  | depth + 1, kinds => ∃ inner last rest, kinds = inner ++ last :: rest ∧ NestedAlike inner ∧
      last.isClosing = true ∧ Closing depth rest

namespace Closing

variable {depth : Nat} {kind : TokenKind} {kinds : List TokenKind}

theorem other (h : Closing depth kinds) (hopening : kind.isOpening = false) (hclosing : kind.isClosing = false) :
    Closing depth (kind :: kinds) := by
  cases depth with
  | zero => exact Nested.other hopening hclosing h
  | succ depth =>
    obtain ⟨inner, last, rest, rfl, hinner, hlast⟩ := h
    exact ⟨kind :: inner, last, rest, rfl, .other hopening hclosing hinner, hlast⟩

theorem opening (h : Closing (depth + 1) kinds) (hopening : kind.isOpening = true) :
    Closing depth (kind :: kinds) := by
  obtain ⟨inner, last, rest, rfl, hinner, hlast, hrest⟩ := h
  cases depth with
  | zero => exact Nested.pair hopening hlast trivial hinner hrest
  | succ depth =>
    obtain ⟨inner', last', rest', rfl, hinner', hlast'⟩ := hrest
    exact ⟨kind :: (inner ++ last :: inner'), last', rest', by simp, .pair hopening hlast trivial hinner hinner',
      hlast'⟩

theorem closing (h : Closing depth kinds) (hclosing : kind.isClosing = true) : Closing (depth + 1) (kind :: kinds) :=
  ⟨[], kind, kinds, rfl, .nil, hclosing, h⟩

end Closing

namespace Parser

/-- **One capture.** What is taken up to a stop closes the brackets that are open. -/
theorem closing_of_reaches {stops : List TokenKind} {depth : Nat} {previous : Option TokenKind}
    {taken rest : List Token} (h : Balanced.Reaches stops depth previous taken rest) :
    Closing depth (taken.map Token.kind) := by
  induction h with
  | stop => exact Nested.nil
  | pass _ hshifts _ ih =>
    cases hshifts with
    | opening h => exact ih.opening h
    | closing h => exact ih.closing h
    | other hopening hclosing => exact ih.other hopening hclosing

/-- **Captured text.** Whatever the stops, and wherever text up to one of them is captured, the brackets of the
tokens that are taken are nested if their kinds are left aside. They are nested by kind if and only if any two
partners among them are of one kind. -/
theorem textUpTo_nested_iff {stops : List TokenKind} {what text : String} {src : Source} {s s' : TokenStream}
    (h : textUpTo stops what src s = .ok text s') :
    ∃ taken, taken ≠ [] ∧ s.ahead = taken ++ s'.ahead ∧ text = src.textOf taken ∧
      NestedAlike (taken.map Token.kind) ∧
      (NestedByKind (taken.map Token.kind) ↔
        ∀ first last, Partners (taken.map Token.kind) first last → first.counterpart = some last) := by
  obtain ⟨taken, htaken, htext⟩ := (textUpTo_taken stops what).of_ok h
  have hnested : NestedAlike (taken.map Token.kind) := closing_of_reaches (.of_upTo htaken.stopped)
  refine ⟨taken, htaken.nonempty, htaken.ahead, htext, hnested, ?_⟩
  exact Nested.iff_partners.trans (and_iff_right hnested)

/-- What is captured as a type in front of a text, and the tokens that are left. -/
def typeAtFront (src : Source) : Except ParseError (String × List Token) := do
  let tokens ← src.tokenize
  match textUpTo typeStops "type" src (TokenStream.ofTokens tokens) with
  | .ok text s => return (text, s.ahead)
  | .error e _ => throw e

/-- A type with brackets of two kinds. -/
def pairs : Source := { text := "Vec<(u8, A)> -> B;" }

/-- The tokens of the pairs in front of the arrow. -/
def pairsType : List Token :=
  [⟨.identifier, "Vec", 1, 1, 0, 3⟩, ⟨.lessThan, "<", 1, 4, 3, 4⟩, ⟨.leftParen, "(", 1, 5, 4, 5⟩,
    ⟨.identifier, "u8", 1, 6, 5, 7⟩, ⟨.comma, ",", 1, 8, 7, 8⟩, ⟨.identifier, "A", 1, 10, 9, 10⟩,
    ⟨.rightParen, ")", 1, 11, 10, 11⟩, ⟨.greaterThan, ">", 1, 12, 11, 12⟩]

/-- The tokens of the pairs from the arrow on. -/
def pairsRest : TokenStream :=
  ⟨[⟨.arrow, "->", 1, 14, 13, 15⟩, ⟨.identifier, "B", 1, 17, 16, 17⟩, ⟨.semicolon, ";", 1, 18, 17, 18⟩],
    ⟨.endOfInput, "", 1, 19, 18, 18⟩⟩

theorem pairs_nested :
    textUpTo typeStops "type" pairs ⟨pairsType ++ pairsRest.ahead, pairsRest.last⟩ =
      .ok "Vec<(u8, A)>" pairsRest ∧
    NestedByKind (pairsType.map Token.kind) ∧
    ∀ first last, Partners (pairsType.map Token.kind) first last → first.counterpart = some last := by
  have hcapture : textUpTo typeStops "type" pairs ⟨pairsType ++ pairsRest.ahead, pairsRest.last⟩ =
      .ok "Vec<(u8, A)>" pairsRest :=
    rfl
  have hword (kind : TokenKind) (h : kind.isOpening = false ∧ kind.isClosing = false) {kinds : List TokenKind}
      (hrest : NestedByKind kinds) : NestedByKind (kind :: kinds) := .other h.1 h.2 hrest
  have hinside : NestedByKind [.identifier, .comma, .identifier] :=
    hword _ ⟨rfl, rfl⟩ (hword _ ⟨rfl, rfl⟩ (hword _ ⟨rfl, rfl⟩ .nil))
  have hparens : NestedByKind ([.leftParen] ++ [.identifier, .comma, .identifier] ++ [.rightParen]) :=
    .pair rfl rfl rfl hinside .nil
  have hangles : NestedByKind ([.lessThan] ++ [.leftParen, .identifier, .comma, .identifier, .rightParen] ++
      [.greaterThan]) :=
    .pair rfl rfl rfl hparens .nil
  have hnested : NestedByKind (pairsType.map Token.kind) := hword .identifier ⟨rfl, rfl⟩ hangles
  obtain ⟨taken, -, hahead, -, -, hiff⟩ := textUpTo_nested_iff hcapture
  obtain rfl : pairsType = taken := List.append_cancel_right hahead
  exact ⟨hcapture, hnested, hiff.mp hnested⟩

/-- A parenthesis that a square bracket closes is captured, and the brackets are not nested by kind. -/
theorem mixed_captured :
    typeAtFront { text := "(u8] -> B;" } = .ok ("(u8]",
      [⟨.arrow, "->", 1, 6, 5, 7⟩, ⟨.identifier, "B", 1, 9, 8, 9⟩, ⟨.semicolon, ";", 1, 10, 9, 10⟩]) ∧
    ¬ NestedByKind [.leftParen, .identifier, .rightBracket] := by
  refine ⟨by decide +kernel, fun h => ?_⟩
  obtain ⟨inner, last, back, hmore, -, -, hlast⟩ := h.exists_partner (List.nil_append _).symm rfl
  have hmem : TokenKind.rightParen ∈ [TokenKind.identifier, .rightBracket] := by
    rw [hmore, Option.some.inj hlast]
    exact List.mem_append_right _ List.mem_cons_self
  exact absurd hmem (by decide)

end Parser

end Typestate
