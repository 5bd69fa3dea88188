import Typestate.Grammar.Verbatim

/-!
Searching for a stop, one token at a time. A token ends the search (`Balanced.upTo_of_stop`), or it is passed
and changes the depth as its kind says (`Balanced.upTo_of_shifts`). A search that finds a stop has taken such
steps only (`Balanced.upTo_eq_stopped_iff`), so what it takes is looked at by induction on them. So it is with
the search for the bracket that closes an attribute (`closeBracket_eq_some_iff`).
-/

namespace Typestate

theorem TokenKind.not_isClosing_of_isOpening {kind : TokenKind} (h : kind.isOpening = true) :
    kind.isClosing = false := by
  cases kind <;> first | rfl | cases h

theorem TokenKind.not_isOpening_of_isClosing {kind : TokenKind} (h : kind.isClosing = true) :
    kind.isOpening = false := by
  cases kind <;> first | rfl | cases h

namespace Balanced

variable {stops : List TokenKind} {depth depth' : Nat} {previous : Option TokenKind} {kind : TokenKind}
  {t : Token} {ts taken rest : List Token}

/-! ## Tokens in front -/

theorem prepend_eq_stopped_iff {b : Balanced} :
    b.prepend t = .stopped taken rest ↔ ∃ more, b = .stopped more rest ∧ taken = t :: more := by
  constructor
  · intro h
    cases b <;> cases h
    exact ⟨_, rfl, rfl⟩
  · rintro ⟨more, rfl, rfl⟩
    rfl

theorem foldr_prepend_stopped (ts taken rest : List Token) :
    ts.foldr prepend (.stopped taken rest) = .stopped (ts ++ taken) rest := by
  induction ts with
  | nil => rfl
  | cons t ts ih =>
    rw [List.foldr_cons, ih]
    rfl

theorem exists_of_foldr_prepend {b : Balanced} (h : ts.foldr prepend b = .stopped taken rest) :
    ∃ more, b = .stopped more rest ∧ taken = ts ++ more := by
  induction ts generalizing taken with
  | nil => exact ⟨taken, h, rfl⟩
  | cons t ts ih =>
    obtain ⟨behind, hbehind, rfl⟩ := prepend_eq_stopped_iff.mp h
    obtain ⟨more, hmore, rfl⟩ := ih hbehind
    exact ⟨more, hmore, rfl⟩

/-! ## One step -/

/-- Passing a token leads from one depth to another. A bracket that closes needs one that is open. -/
inductive Shifts (kind : TokenKind) : Nat → Nat → Prop
  | opening {depth : Nat} (h : kind.isOpening = true) : Shifts kind depth (depth + 1)
  | closing {depth : Nat} (h : kind.isClosing = true) : Shifts kind (depth + 1) depth
  | other {depth : Nat} (hopening : kind.isOpening = false) (hclosing : kind.isClosing = false) :
    Shifts kind depth depth

theorem exists_shifts (h : kind.isClosing = true → depth ≠ 0) : ∃ depth', Shifts kind depth depth' := by
  cases hopening : kind.isOpening with
  | true => exact ⟨depth + 1, .opening hopening⟩
  | false =>
    cases hclosing : kind.isClosing with
    | true =>
      obtain ⟨depth', rfl⟩ := Nat.exists_eq_succ_of_ne_zero (h hclosing)
      exact ⟨depth', .closing hclosing⟩
    | false => exact ⟨depth, .other hopening hclosing⟩

/-- The depth is the number of brackets that are open behind some tokens. -/
theorem Shifts.countP_concat {front : List TokenKind} (h : Shifts kind depth depth')
    (hdepth : front.countP TokenKind.isClosing + depth = front.countP TokenKind.isOpening) :
    (front ++ [kind]).countP TokenKind.isClosing + depth' = (front ++ [kind]).countP TokenKind.isOpening := by
  simp only [List.countP_append, List.countP_singleton]
  cases h with
  | opening h =>
    simp only [h, TokenKind.not_isClosing_of_isOpening h, ↓reduceIte, Bool.false_eq_true]
    omega
  | closing h =>
    simp only [h, TokenKind.not_isOpening_of_isClosing h, ↓reduceIte, Bool.false_eq_true]
    omega
  | other hopening hclosing => simpa [hopening, hclosing] using hdepth

theorem ends_iff :
    (depth == 0 && stops.contains kind && !(kind == .arrow && previous == some .rightParen)) = true ↔
      depth = 0 ∧ kind ∈ stops ∧ (kind = .arrow → previous ≠ some .rightParen) := by
  simp [and_assoc, Decidable.imp_iff_not_or]

theorem not_ends_iff :
    ¬ (depth = 0 ∧ kind ∈ stops ∧ (kind = .arrow → previous ≠ some .rightParen)) ↔
      (depth = 0 → kind ∈ stops → kind = .arrow ∧ previous = some .rightParen) := by
  simp

/-- A stop ends the search, unless it is the arrow directly behind a closing parenthesis. -/
theorem upTo_of_stop (hstop : t.kind ∈ stops) (harrow : t.kind = .arrow → previous ≠ some .rightParen) :
    upTo stops 0 previous (t :: rest) = .stopped [] (t :: rest) := by
  rw [upTo, if_pos (ends_iff.mpr ⟨rfl, hstop, harrow⟩)]

theorem upTo_of_shifts (hpasses : depth = 0 → t.kind ∈ stops → t.kind = .arrow ∧ previous = some .rightParen)
    (hshifts : Shifts t.kind depth depth') :
    upTo stops depth previous (t :: ts) = (upTo stops depth' (some t.kind) ts).prepend t := by
  rw [upTo, if_neg (mt ends_iff.mp (not_ends_iff.mpr hpasses))]
  cases hshifts with
  | opening h => rw [if_pos h]
  | closing h =>
    simp only [h, TokenKind.not_isOpening_of_isClosing h, ↓reduceIte, Bool.false_eq_true]
    rfl
  | other hopening hclosing => simp only [hopening, hclosing, ↓reduceIte, Bool.false_eq_true]

/-- A bracket that closes none of those opened ends the search as well. -/
theorem upTo_of_unbalanced (hpasses : t.kind ∈ stops → t.kind = .arrow ∧ previous = some .rightParen)
    (hclosing : t.kind.isClosing = true) : upTo stops 0 previous (t :: rest) = .unbalanced t rest := by
  rw [upTo, if_neg (mt ends_iff.mp (not_ends_iff.mpr fun _ => hpasses))]
  simp only [hclosing, TokenKind.not_isOpening_of_isClosing hclosing, ↓reduceIte, Bool.false_eq_true]
  rfl

/-! ## Searches that end at a stop -/

/-- A search passes the tokens that are taken, and ends at the first of the rest. -/
inductive Reaches (stops : List TokenKind) : Nat → Option TokenKind → List Token → List Token → Prop
  | stop {previous : Option TokenKind} {t : Token} {rest : List Token} (hstop : t.kind ∈ stops)
    (harrow : t.kind = .arrow → previous ≠ some .rightParen) : Reaches stops 0 previous [] (t :: rest)
  | pass {depth depth' : Nat} {previous : Option TokenKind} {t : Token} {taken rest : List Token}
    (hpasses : depth = 0 → t.kind ∈ stops → t.kind = .arrow ∧ previous = some .rightParen)
    (hshifts : Shifts t.kind depth depth') (hbehind : Reaches stops depth' (some t.kind) taken rest) :
    Reaches stops depth previous (t :: taken) rest

theorem Reaches.upTo (h : Reaches stops depth previous taken rest) :
    upTo stops depth previous (taken ++ rest) = .stopped taken rest := by
  induction h with
  | stop hstop harrow => exact upTo_of_stop hstop harrow
  | pass hpasses hshifts _ ih =>
    rw [List.cons_append, upTo_of_shifts hpasses hshifts, ih]
    rfl

theorem upTo_eq_stopped_iff :
    upTo stops depth previous ts = .stopped taken rest ↔
      ts = taken ++ rest ∧ Reaches stops depth previous taken rest := by
  refine ⟨fun h => ?_, fun ⟨hts, h⟩ => hts ▸ h.upTo⟩
  induction ts generalizing depth previous taken with
  | nil => cases h
  | cons t ts ih =>
    by_cases hends : depth = 0 ∧ t.kind ∈ stops ∧ (t.kind = .arrow → previous ≠ some .rightParen)
    · obtain ⟨rfl, hstop, harrow⟩ := hends
      rw [upTo_of_stop hstop harrow] at h
      cases h
      exact ⟨rfl, .stop hstop harrow⟩
    have hpasses := not_ends_iff.mp hends
    by_cases hunbalanced : t.kind.isClosing = true ∧ depth = 0
    · obtain ⟨hclosing, rfl⟩ := hunbalanced
      rw [upTo_of_unbalanced (hpasses rfl) hclosing] at h
      cases h
    obtain ⟨depth', hshifts⟩ := exists_shifts fun hclosing hdepth => hunbalanced ⟨hclosing, hdepth⟩
    rw [upTo_of_shifts hpasses hshifts] at h
    obtain ⟨more, hmore, rfl⟩ := prepend_eq_stopped_iff.mp h
    obtain ⟨rfl, hreaches⟩ := ih hmore
    exact ⟨rfl, .pass hpasses hshifts hreaches⟩

theorem Reaches.of_upTo (h : Balanced.upTo stops depth previous ts = .stopped taken rest) :
    Reaches stops depth previous taken rest :=
  (upTo_eq_stopped_iff.mp h).2

/-- A search ends in front of a token. -/
theorem Reaches.exists_stop (h : Reaches stops depth previous taken rest) :
    ∃ stop after, rest = stop :: after ∧ stop.kind ∈ stops := by
  induction h with
  | stop hstop _ => exact ⟨_, _, rfl, hstop⟩
  | pass _ _ _ ih => exact ih

end Balanced

/-! ## Attributes -/

/-- The tokens go up to the square bracket that closes the outermost of `depth + 1` open ones. -/
inductive ClosesBracket : Nat → List Token → Prop
  | last {t : Token} (hkind : t.kind = .rightBracket) : ClosesBracket 0 [t]
  | opening {depth : Nat} {t : Token} {ts : List Token} (hkind : t.kind = .leftBracket)
    (hbehind : ClosesBracket (depth + 1) ts) : ClosesBracket depth (t :: ts)
  | closing {depth : Nat} {t : Token} {ts : List Token} (hkind : t.kind = .rightBracket)
    (hbehind : ClosesBracket depth ts) : ClosesBracket (depth + 1) (t :: ts)
  | other {depth : Nat} {t : Token} {ts : List Token} (hopening : t.kind ≠ .leftBracket)
    (hclosing : t.kind ≠ .rightBracket) (hbehind : ClosesBracket depth ts) : ClosesBracket depth (t :: ts)

theorem ClosesBracket.closeBracket_append {depth : Nat} {taken : List Token} (h : ClosesBracket depth taken)
    (rest : List Token) : closeBracket depth (taken ++ rest) = some (taken, rest) := by
  induction h with
  | last hkind => simp [closeBracket, hkind]
  | opening hkind _ ih => simp [closeBracket, hkind, ih]
  | closing hkind _ ih => simp [closeBracket, hkind, ih]
  | other _ _ _ ih => simp [closeBracket, ih]

theorem closeBracket_eq_some_iff {depth : Nat} {ts taken rest : List Token} :
    closeBracket depth ts = some (taken, rest) ↔ ts = taken ++ rest ∧ ClosesBracket depth taken := by
  refine ⟨fun h => ?_, fun ⟨hts, h⟩ => hts ▸ h.closeBracket_append rest⟩
  induction ts generalizing depth taken with
  | nil => cases h
  | cons t ts ih =>
    unfold closeBracket at h
    obtain ⟨⟨behind, rest'⟩, hafter, heq⟩ := Option.map_eq_some_iff.mp h
    cases heq
    split at hafter
    · next hkind =>
      obtain ⟨rfl, hbehind⟩ := ih hafter
      exact ⟨rfl, .opening hkind hbehind⟩
    · next hkind =>
      cases depth with
      | zero =>
        cases hafter
        exact ⟨rfl, .last hkind⟩
      | succ depth =>
        obtain ⟨rfl, hbehind⟩ := ih hafter
        exact ⟨rfl, .closing hkind hbehind⟩
    · next hopening hclosing =>
      obtain ⟨rfl, hbehind⟩ := ih hafter
      exact ⟨rfl, .other hopening hclosing hbehind⟩

end Typestate
