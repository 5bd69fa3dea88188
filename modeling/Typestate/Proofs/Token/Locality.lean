import Mathlib.Data.List.TakeWhile
import Typestate.Token.Lexeme

/-!
What reading a token or comment depends on. The text of a lexeme is read in the same way in front of
anything that it does not run into (`Lexeme.first_local`).
-/

namespace Typestate.Lexeme

/-- A lifetime, a number or a word may start with the character. -/
def isLongStart (c : Char) : Bool := c == '\'' || Identifier.isWordChar c

/-- The text of a lexeme does not run into what follows it. -/
structure Apart (text tail : List Char) : Prop where
  line : ['/', '/'] <+: text → ∀ c ∈ tail.head?, c = '\n'
  colon : text = [':'] → tail.head? ≠ some ':'
  minus : text = ['-'] → tail.head? ≠ some '>'
  word : ∀ c ∈ text.head?, isLongStart c → ∀ d ∈ tail.head?, Identifier.isWordChar d = false
  raw : text = ['r'] → tail.head? = some '#' → startsWithWord (tail.drop 1) = false

/-- What is read at the front of a text is the same in front of other texts. -/
def IsLocal (c : Char) (rest : List Char) (l : Lexeme) : Prop :=
  ∃ more tail, rest = more ++ tail ∧ l.more = more.length ∧ Apart (c :: more) tail ∧
    ∀ tail', Apart (c :: more) tail' → first c (more ++ tail') = .ok l

/-! ## Words -/

theorem isWordChar_of_isWordStart {c : Char} (h : Identifier.isWordStart c = true) :
    Identifier.isWordChar c = true := by
  unfold Identifier.isWordStart at h
  unfold Identifier.isWordChar
  rcases Bool.or_eq_true_iff.mp h with h | h
  · rw [h, Bool.true_or, Bool.true_or]
  · rw [h, Bool.or_true]

theorem head?_dropWhile {p : Char → Bool} (cs : List Char) :
    ∀ d ∈ (cs.dropWhile p).head?, p d = false := by
  intro d hd
  induction cs with
  | nil => cases hd
  | cons c cs ih =>
    rw [List.dropWhile_cons] at hd
    split at hd
    · exact ih hd
    · cases hd
      exact Bool.eq_false_iff.mpr ‹_›

/-- A run of characters ends where one follows that is not of its kind. -/
theorem takeWhile_append_of_head {p : Char → Bool} {cs tail : List Char} (hcs : ∀ c ∈ cs, p c = true)
    (htail : ∀ d ∈ tail.head?, p d = false) : (cs ++ tail).takeWhile p = cs := by
  rw [List.takeWhile_append_of_pos hcs]
  cases tail with
  | nil => rw [List.takeWhile_nil, List.append_nil]
  | cons d tail =>
    rw [List.takeWhile_cons_of_neg (Bool.not_eq_true _ ▸ htail d rfl), List.append_nil]

theorem word_append {cs tail : List Char}
    (htail : ∀ d ∈ tail.head?, Identifier.isWordChar d = false) : word (word cs ++ tail) = word cs :=
  takeWhile_append_of_head (fun _ hc => List.mem_takeWhile_imp hc) htail

theorem word_append_dropWhile (cs : List Char) : cs = word cs ++ cs.dropWhile Identifier.isWordChar :=
  List.takeWhile_append_dropWhile.symm

theorem word_cons_of_pos {c : Char} (h : Identifier.isWordChar c = true) (cs : List Char) :
    word (c :: cs) = c :: word cs := List.takeWhile_cons_of_pos h

/-- A word in front of what it does not run into starts as it did. -/
theorem startsWithWord_word_append {cs : List Char} (h : startsWithWord cs = true) (tail : List Char) :
    startsWithWord (word cs ++ tail) = true := by
  rcases cs with _ | ⟨d, cs⟩
  · cases h
  · rw [word_cons_of_pos (isWordChar_of_isWordStart h)]
    exact h

/-! ## Strings and comments -/

/-- The inside of a comment ends at the same place whatever follows. -/
theorem commentBody_local {depth : Nat} {cs body rest : List Char}
    (h : commentBody depth cs = some (body, rest)) :
    ∃ inner, cs = inner ++ rest ∧ 2 ≤ inner.length ∧
      ∀ rest', commentBody depth (inner ++ rest') = some (body, rest') := by
  induction cs generalizing depth body with
  | nil => cases h
  | cons c cs ih =>
    -- At least two characters are still to come, so the next one is the same whatever follows.
    have hhead : ∀ {inner rest' : List Char}, 2 ≤ inner.length → inner ++ rest = cs →
        (inner ++ rest').head? = cs.head? := by
      rintro (_ | ⟨d, inner⟩) rest' hlength rfl
      · cases hlength
      · rfl
    have hgo : ∀ {depth' : Nat}, (commentBody depth' cs).map (prepend c) = some (body, rest) →
        (∀ inner rest', (inner ++ rest').head? = cs.head? →
          commentBody depth (c :: (inner ++ rest')) =
            (commentBody depth' (inner ++ rest')).map (prepend c)) →
        ∃ inner, c :: cs = inner ++ rest ∧ 2 ≤ inner.length ∧
          ∀ rest', commentBody depth (inner ++ rest') = some (body, rest') := by
      intro depth' h hstep
      obtain ⟨⟨body', rest'⟩, hbody, heq⟩ := Option.map_eq_some_iff.mp h
      cases heq
      obtain ⟨inner, hcs, hlength, hlocal⟩ := ih hbody
      refine ⟨c :: inner, by rw [hcs, List.cons_append], Nat.le_succ_of_le hlength, fun rest' => ?_⟩
      rw [List.cons_append, hstep inner rest' (hhead hlength hcs.symm), hlocal]
      rfl
    unfold commentBody at h
    split at h
    · next hopen => exact hgo h fun inner rest' hsame => by rw [commentBody, hsame, if_pos hopen]
    · next hopen =>
      split at h
      · next hclose =>
        split at h
        · next hdepth =>
          cases h
          obtain ⟨hstar, hslash⟩ := Bool.and_eq_true_iff.mp hclose
          cases cs with
          | nil => cases hslash
          | cons d cs =>
            obtain rfl : d = '/' := Option.some.inj (beq_iff_eq.mp hslash)
            obtain rfl : c = '*' := beq_iff_eq.mp hstar
            refine ⟨['*', '/'], rfl, Nat.le_refl 2, fun rest' => ?_⟩
            simp [commentBody, beq_iff_eq.mp hdepth]
        · next hdepth =>
          exact hgo h fun inner rest' hsame => by
            rw [commentBody, hsame, if_neg hopen, if_pos hclose, if_neg hdepth]
      · next hclose =>
        exact hgo h fun inner rest' hsame => by
          rw [commentBody, hsame, if_neg hopen, if_neg hclose]

theorem stringEnd_of_prepend {c : Char} {e : StringEnd} {value rest : List Char}
    (h : e.prepend c = .closed value rest) : ∃ value', e = .closed value' rest ∧ value = c :: value' := by
  cases e with
  | closed value' rest' =>
    cases h
    exact ⟨value', rfl, rfl⟩
  | unterminated => cases h
  | unknownEscape e rest' => cases h

/-! ## Strings -/

section
variable {skipping : Bool} {c e v : Char} {cs : List Char}

theorem stringBody_skip (h : isSpace c = true) : stringBody true (c :: cs) = stringBody true cs := by
  rw [stringBody.eq_def]
  simp [h]

theorem stringBody_quote : stringBody skipping ('"' :: cs) = .closed [] cs := by
  rw [stringBody.eq_def]
  simp [isSpace]

/-- A backslash at the end of a line drops the spaces after it. -/
theorem stringBody_continued : stringBody skipping ('\\' :: '\n' :: cs) = stringBody true cs := by
  rw [stringBody.eq_def]
  simp [isSpace]

theorem stringBody_escape (h : unescape e = some v) :
    stringBody skipping ('\\' :: e :: cs) = (stringBody false cs).prepend v := by
  have he : e ≠ '\n' := by
    rintro rfl
    cases h
  rw [stringBody.eq_def]
  simp [isSpace, he, h]

theorem stringBody_unknown (he : e ≠ '\n') (h : unescape e = none) :
    stringBody skipping ('\\' :: e :: cs) = .unknownEscape e (e :: cs) := by
  rw [stringBody.eq_def]
  simp [isSpace, he, h]

theorem stringBody_char (hskip : (skipping && isSpace c) = false) (hquote : c ≠ '"')
    (hslash : c ≠ '\\') : stringBody skipping (c :: cs) = (stringBody false cs).prepend c := by
  rw [stringBody.eq_def]
  simp [hskip, hquote, hslash]

end

/-- The inside of a string ends at the same place whatever follows. -/
theorem stringBody_local {skipping : Bool} {cs value rest : List Char}
    (h : stringBody skipping cs = .closed value rest) :
    ∃ inner, cs = inner ++ rest ∧ inner ≠ [] ∧
      ∀ rest', stringBody skipping (inner ++ rest') = .closed value rest' := by
  fun_induction stringBody skipping cs generalizing value with
  | case1 => cases h
  | case2 skipping c cs hskip ih =>
    obtain ⟨inner, rfl, -, hlocal⟩ := ih h
    obtain ⟨rfl, hspace⟩ := Bool.and_eq_true_iff.mp hskip
    refine ⟨c :: inner, rfl, List.cons_ne_nil _ _, fun rest' => ?_⟩
    rw [List.cons_append, stringBody_skip hspace, hlocal]
  | case3 skipping c cs hskip hquote =>
    cases h
    obtain rfl : c = '"' := beq_iff_eq.mp hquote
    exact ⟨['"'], rfl, List.cons_ne_nil _ _, fun rest' => stringBody_quote⟩
  | case4 => cases h
  | case5 skipping c _ _ hslash e cs hnewline ih =>
    obtain ⟨inner, rfl, -, hlocal⟩ := ih h
    obtain rfl : c = '\\' := beq_iff_eq.mp hslash
    obtain rfl : e = '\n' := beq_iff_eq.mp hnewline
    refine ⟨'\\' :: '\n' :: inner, rfl, List.cons_ne_nil _ _, fun rest' => ?_⟩
    rw [List.cons_append, List.cons_append, stringBody_continued, hlocal]
  | case6 skipping c _ _ hslash e cs hnewline v hv ih =>
    obtain ⟨value', hrest, rfl⟩ := stringEnd_of_prepend h
    obtain ⟨inner, rfl, -, hlocal⟩ := ih hrest
    obtain rfl : c = '\\' := beq_iff_eq.mp hslash
    refine ⟨'\\' :: e :: inner, rfl, List.cons_ne_nil _ _, fun rest' => ?_⟩
    rw [List.cons_append, List.cons_append, stringBody_escape hv, hlocal]
    rfl
  | case7 => cases h
  | case8 skipping c cs hskip hquote hslash ih =>
    obtain ⟨value', hrest, rfl⟩ := stringEnd_of_prepend h
    obtain ⟨inner, rfl, -, hlocal⟩ := ih hrest
    refine ⟨c :: inner, rfl, List.cons_ne_nil _ _, fun rest' => ?_⟩
    rw [List.cons_append, stringBody_char (Bool.eq_false_iff.mpr hskip) (by simpa using hquote)
      (by simpa using hslash), hlocal]
    rfl

/-! ## Lexemes -/

section
variable {c : Char} {rest : List Char} {l : Lexeme}

theorem first_quote : first '"' rest = quote ('"' :: rest) := by
  simp [first]

theorem first_lifetime : first '\'' rest =
    if startsWithWord rest then .ok (plain .lifetime ('\'' :: word rest))
    else .error ⟨.lifetimeName, 0, 1, 1⟩ := by
  simp [first]

theorem first_slash : first '/' rest =
    if rest.head? = some '/' then .ok (slashes ('/' :: rest))
    else if rest.head? = some '*' then slashStar ('/' :: rest)
    else .error ⟨.unexpectedCharacter '/', 0, 1, 0⟩ := by
  have hdigit : Unicode.isDigit '/' = false := by decide
  have hstart : Identifier.isWordStart '/' = false := by decide
  have hpunctuation : punctuation '/' rest = .error ⟨.unexpectedCharacter '/', 0, 1, 0⟩ := rfl
  unfold first
  simp [hdigit, hstart, hpunctuation]

theorem first_other (hslash : c ≠ '/') (hquote : c ≠ '"') (htick : c ≠ '\'') : first c rest =
    if Unicode.isDigit c then .ok (plain .number (word (c :: rest)))
    else if c = 'r' ∧ rest.head? = some '#' ∧ startsWithWord (rest.drop 1) = true then
      .ok (plain .identifier ('r' :: '#' :: word (rest.drop 1)))
    else if Identifier.isWordStart c then
      .ok (plain (TokenKind.ofWord (word (c :: rest))) (word (c :: rest)))
    else punctuation c rest := by
  unfold first
  simp [hslash, hquote, htick, and_assoc]

theorem first_punctuation {kind : TokenKind} (h : TokenKind.ofPunctuation c = some kind) :
    first c rest = .ok (plain kind [c]) := by
  unfold TokenKind.ofPunctuation at h
  split at h
  case h_20 => cases h
  all_goals
    cases h
    rw [first_other (by decide) (by decide) (by decide), if_neg (by decide), if_neg (by simp),
      if_neg (by decide)]
    rfl

/-- Three slashes are told from four without looking behind the line. -/
theorem isDocLine_append {line tail tail' : List Char} (h : ∀ d ∈ tail.head?, d = '\n')
    (h' : ∀ d ∈ tail'.head?, d = '\n') :
    isDocLine ('/' :: '/' :: (line ++ tail)) = isDocLine ('/' :: '/' :: (line ++ tail')) := by
  have hdoc : ∀ {tail : List Char}, (∀ d ∈ tail.head?, d = '\n') →
      isDocLine ('/' :: '/' :: (line ++ tail)) = isDocLine ('/' :: '/' :: line) := by
    intro tail htail
    rcases tail with _ | ⟨d, tail⟩
    · rw [List.append_nil]
    · obtain rfl : d = '\n' := htail d rfl
      rcases line with _ | ⟨x, _ | ⟨y, line⟩⟩
      · rfl
      · by_cases hx : x = '/'
        · subst hx
          rfl
        · simp [isDocLine, hx]
      · by_cases hx : x = '/' <;> by_cases hy : y = '/' <;> simp [isDocLine, hx, hy]
  rw [hdoc h, hdoc h']

theorem isLocal_slashes (hrest : rest.head? = some '/') (h : first '/' rest = .ok l) :
    IsLocal '/' rest l := by
  rcases rest with _ | ⟨d, rest⟩
  · cases hrest
  obtain rfl : d = '/' := Option.some.inj hrest
  have hfirst : ∀ cs, first '/' ('/' :: cs) = .ok (slashes ('/' :: '/' :: cs)) := fun cs => by
    rw [first_slash, if_pos List.head?_cons]
  have hline : ∀ cs, lineComment ('/' :: '/' :: cs) = '/' :: '/' :: lineComment cs := fun _ => rfl
  have hend : ∀ d ∈ (rest.dropWhile (· != '\n')).head?, d = '\n' := fun d hd => by
    simpa using head?_dropWhile rest d hd
  rw [hfirst] at h
  cases h
  refine ⟨'/' :: lineComment rest, rest.dropWhile (· != '\n'), ?_, ?_, ?_, fun tail' htail' => ?_⟩
  · rw [List.cons_append, lineComment, List.takeWhile_append_dropWhile]
  · unfold slashes
    split <;> simp [hline]
  · exact ⟨fun _ => hend, nofun, nofun, fun c hc hlong => absurd hlong (by cases hc; decide), nofun⟩
  · have htail : ∀ d ∈ tail'.head?, d = '\n' := htail'.line ⟨lineComment rest, rfl⟩
    rw [List.cons_append, hfirst]
    have hsame : lineComment (lineComment rest ++ tail') = lineComment rest := by
      refine takeWhile_append_of_head (fun c hc => ?_) fun d hd => ?_
      · exact List.mem_takeWhile_imp (p := (· != '\n')) hc
      · simpa using htail d hd
    have hdoc : isDocLine ('/' :: '/' :: (lineComment rest ++ tail')) =
        isDocLine ('/' :: '/' :: rest) := by
      rw [isDocLine_append htail hend, lineComment, List.takeWhile_append_dropWhile]
    unfold slashes
    rw [hline, hline, hsame, hdoc]

/-- A lexeme with an end of its own runs into nothing. -/
theorem Apart.of_closed {more tail : List Char} (hlong : isLongStart c = false)
    (hslash : c = '/' → more.head? ≠ some '/') (hmore : more ≠ []) : Apart (c :: more) tail where
  line := by
    rintro ⟨text, ⟨⟩⟩
    exact absurd rfl (hslash rfl)
  colon h := absurd (List.cons.inj h).2 hmore
  minus h := absurd (List.cons.inj h).2 hmore
  word d hd hd' := by
    cases hd
    rw [hlong] at hd'
    cases hd'
  raw h := absurd (List.cons.inj h).2 hmore

/-- A long lexeme runs into characters of words. -/
theorem Apart.of_long {more tail : List Char} (hlong : isLongStart c = true)
    (hword : ∀ d ∈ tail.head?, Identifier.isWordChar d = false)
    (hraw : c = 'r' → more = [] → tail.head? = some '#' → startsWithWord (tail.drop 1) = false) :
    Apart (c :: more) tail where
  line := by
    rintro ⟨text, ⟨⟩⟩
    exact absurd hlong (by decide)
  colon := by
    rintro ⟨⟩
    exact absurd hlong (by decide)
  minus := by
    rintro ⟨⟩
    exact absurd hlong (by decide)
  word _ _ _ := hword
  raw h := hraw (List.cons.inj h).1 (List.cons.inj h).2

/-- A lexeme of one character that is no such start runs into nothing but what makes a longer one. -/
theorem Apart.of_short {tail : List Char} (hlong : ¬ isLongStart c = true) (hslash : c ≠ '/')
    (hcolon : c = ':' → tail.head? ≠ some ':') (hminus : c = '-' → tail.head? ≠ some '>') :
    Apart [c] tail where
  line := by
    rintro ⟨text, ⟨⟩⟩
  colon h := hcolon (List.cons.inj h).1
  minus h := hminus (List.cons.inj h).1
  word d hd hd' := by
    cases hd
    exact absurd hd' hlong
  raw := by
    rintro ⟨⟩
    exact absurd (by decide) hlong

/-- Nothing runs into the end of a text. -/
theorem Apart.nil (text : List Char) : Apart text [] := ⟨nofun, nofun, nofun, nofun, nofun⟩

/-- What is no line does not run into punctuation, but for two colons, a raw marker and an arrow. -/
theorem Apart.of_head {text tail : List Char} {c : Char} (hline : ¬ ['/', '/'] <+: text)
    (hcolon : c ≠ ':') (hminus : c = '>' → text ≠ ['-']) (hword : Identifier.isWordChar c = false)
    (hraw : c ≠ '#') : Apart text (c :: tail) where
  line h := absurd h hline
  colon _ := by simpa using hcolon
  minus h := by
    rintro ⟨⟩
    exact hminus rfl h
  word := by
    rintro _ _ _ _ ⟨⟩
    exact hword
  raw _ := by
    rintro ⟨⟩
    exact absurd rfl hraw

theorem eq_of_isSpace {c : Char} (h : isSpace c = true) : c = ' ' ∨ c = '\t' ∨ c = '\r' ∨ c = '\n' := by
  simpa [isSpace, or_assoc] using h

theorem isWordChar_of_isSpace {c : Char} (h : isSpace c = true) : Identifier.isWordChar c = false := by
  rcases eq_of_isSpace h with rfl | rfl | rfl | rfl <;> decide

theorem Apart.of_space {text tail : List Char} {c : Char} (hline : ¬ ['/', '/'] <+: text)
    (h : isSpace c = true) : Apart text (c :: tail) := by
  refine .of_head hline ?_ ?_ (isWordChar_of_isSpace h) ?_
  · rintro rfl
    cases h
  · rintro rfl
    cases h
  · rintro rfl
    cases h

theorem startsWithWord_of_head {tail : List Char} {c : Char} (h : Identifier.isWordChar c = false) :
    startsWithWord (c :: tail) = false := by
  refine Bool.eq_false_iff.mpr fun hstart => ?_
  rw [isWordChar_of_isWordStart hstart] at h
  cases h

theorem isLocal_slashStar (hrest : rest.head? = some '*') (h : first '/' rest = .ok l) :
    IsLocal '/' rest l := by
  rcases rest with _ | ⟨d, rest⟩
  · cases hrest
  obtain rfl : d = '*' := Option.some.inj hrest
  have hfirst : ∀ cs, first '/' ('*' :: cs) = slashStar ('/' :: '*' :: cs) := fun cs => by
    rw [first_slash, if_neg (by simp), if_pos List.head?_cons]
  have hcomment : ∀ cs body tail, commentBody 0 cs = some (body, tail) →
      blockComment ('/' :: '*' :: cs) = .ok (body, cs.length + 2 - tail.length) := by
    intro cs body tail hbody
    simp only [blockComment, List.drop_succ_cons, List.drop_zero, hbody, List.length_cons]
  rw [hfirst, slashStar] at h
  cases hbody : commentBody 0 rest with
  | none =>
    simp only [blockComment, List.drop_succ_cons, List.drop_zero, hbody] at h
    cases h
  | some found =>
    obtain ⟨body, tail⟩ := found
    rw [hcomment _ _ _ hbody] at h
    cases h
    obtain ⟨inner, rfl, hlength, hlocal⟩ := commentBody_local hbody
    refine ⟨'*' :: inner, tail, rfl, ?_, ?_, fun tail' _ => ?_⟩
    · rw [List.length_append, List.length_cons]
      dsimp only
      omega
    · exact .of_closed (by decide) (fun _ => by simp) (List.cons_ne_nil _ _)
    · have hdoc : isDocBlock ('/' :: '*' :: (inner ++ tail')) =
          isDocBlock ('/' :: '*' :: (inner ++ tail)) := by
        rcases inner with _ | ⟨x, _ | ⟨y, inner⟩⟩
        · cases hlength
        · exact absurd hlength (by simp)
        · by_cases hx : x = '*' <;> by_cases hy : y = '*' <;> by_cases hy' : y = '/' <;>
            simp [isDocBlock, hx, hy, hy']
      rw [List.cons_append, hfirst, slashStar, hcomment _ _ _ (hlocal tail')]
      dsimp only
      rw [hdoc, List.length_append, List.length_append]
      congr 2
      omega

theorem isLocal_quote (h : first '"' rest = .ok l) : IsLocal '"' rest l := by
  have hliteral : ∀ cs value tail, stringBody false cs = .closed value tail →
      stringLiteral ('"' :: cs) = .ok (value, cs.length + 1 - tail.length) := by
    intro cs value tail hbody
    simp only [stringLiteral, List.drop_succ_cons, List.drop_zero, hbody, List.length_cons]
  rw [first_quote, quote] at h
  cases hbody : stringBody false rest with
  | unterminated =>
    simp only [stringLiteral, List.drop_succ_cons, List.drop_zero, hbody] at h
    cases h
  | unknownEscape e rest' =>
    simp only [stringLiteral, List.drop_succ_cons, List.drop_zero, hbody] at h
    cases h
  | closed value tail =>
    rw [hliteral _ _ _ hbody] at h
    cases h
    obtain ⟨inner, rfl, hne, hlocal⟩ := stringBody_local hbody
    refine ⟨inner, tail, rfl, ?_, ?_, fun tail' _ => ?_⟩
    · rw [List.length_append]
      dsimp only
      omega
    · exact .of_closed (by decide) (fun h => absurd h (by decide)) hne
    · rw [first_quote, quote, hliteral _ _ _ (hlocal tail')]
      dsimp only
      rw [List.length_append, List.length_append]
      congr 2
      omega

theorem isLocal_lifetime (h : first '\'' rest = .ok l) : IsLocal '\'' rest l := by
  rw [first_lifetime] at h
  split at h
  · next hstart =>
    cases h
    refine ⟨word rest, rest.dropWhile Identifier.isWordChar, word_append_dropWhile rest, rfl, ?_,
      fun tail' htail' => ?_⟩
    · exact .of_long (by decide) (head?_dropWhile rest) (fun h => absurd h (by decide))
    · have hword : ∀ d ∈ tail'.head?, Identifier.isWordChar d = false := htail'.word _ rfl (by decide)
      rw [first_lifetime, if_pos (startsWithWord_word_append hstart tail'), word_append hword]
  · cases h

theorem isLocal_number (hslash : c ≠ '/') (hquote : c ≠ '"') (htick : c ≠ '\'')
    (hdigit : Unicode.isDigit c = true) (h : first c rest = .ok l) : IsLocal c rest l := by
  have hfirst : ∀ cs, first c cs = .ok (plain .number (word (c :: cs))) := fun cs => by
    rw [first_other hslash hquote htick, if_pos hdigit]
  have hr : c ≠ 'r' := by
    rintro rfl
    cases hdigit
  rw [hfirst] at h
  cases h
  by_cases hchar : Identifier.isWordChar c = true
  · have hlong : isLongStart c = true := by simp [isLongStart, hchar]
    refine ⟨word rest, rest.dropWhile Identifier.isWordChar, word_append_dropWhile rest, ?_, ?_,
      fun tail' htail' => ?_⟩
    · rw [word_cons_of_pos hchar]
      rfl
    · exact .of_long hlong (head?_dropWhile rest) (fun h => absurd h hr)
    · rw [hfirst, word_cons_of_pos hchar, word_cons_of_pos hchar, word_append (htail'.word c rfl hlong)]
  · -- A digit that is no character of words would be read as an empty number.
    have hword : ∀ cs, word (c :: cs) = [] := fun cs => List.takeWhile_cons_of_neg hchar
    refine ⟨[], rest, rfl, by rw [hword]; rfl, ?_, fun tail' _ => by rw [hfirst, hword, hword]⟩
    refine .of_short (by simp [isLongStart, hchar, htick]) hslash ?_ ?_
    · rintro rfl
      cases hdigit
    · rintro rfl
      cases hdigit

theorem isLocal_raw (hstart : startsWithWord rest = true) (h : first 'r' ('#' :: rest) = .ok l) :
    IsLocal 'r' ('#' :: rest) l := by
  have hfirst : ∀ cs, startsWithWord cs = true →
      first 'r' ('#' :: cs) = .ok (plain .identifier ('r' :: '#' :: word cs)) := fun cs hcs => by
    rw [first_other (by decide) (by decide) (by decide), if_neg (by decide), if_pos ⟨rfl, rfl, hcs⟩]
    rfl
  rw [hfirst rest hstart] at h
  cases h
  refine ⟨'#' :: word rest, rest.dropWhile Identifier.isWordChar, ?_, rfl, ?_, fun tail' htail' => ?_⟩
  · rw [List.cons_append, ← word_append_dropWhile]
  · exact .of_long (by decide) (head?_dropWhile rest) nofun
  · rw [List.cons_append, hfirst _ (startsWithWord_word_append hstart tail'),
      word_append (htail'.word _ rfl (by decide))]

theorem isLocal_word (hslash : c ≠ '/') (hquote : c ≠ '"') (htick : c ≠ '\'')
    (hdigit : Unicode.isDigit c = false)
    (hraw : ¬ (c = 'r' ∧ rest.head? = some '#' ∧ startsWithWord (rest.drop 1) = true))
    (hstart : Identifier.isWordStart c = true) (h : first c rest = .ok l) : IsLocal c rest l := by
  have hchar : Identifier.isWordChar c = true := isWordChar_of_isWordStart hstart
  have hlong : isLongStart c = true := by simp [isLongStart, hchar]
  have hfirst : ∀ cs, ¬ (c = 'r' ∧ cs.head? = some '#' ∧ startsWithWord (cs.drop 1) = true) →
      first c cs = .ok (plain (TokenKind.ofWord (c :: word cs)) (c :: word cs)) := fun cs hcs => by
    rw [first_other hslash hquote htick, if_neg (by simp [hdigit]), if_neg hcs, if_pos hstart,
      word_cons_of_pos hchar]
  rw [hfirst rest hraw] at h
  cases h
  refine ⟨word rest, rest.dropWhile Identifier.isWordChar, word_append_dropWhile rest, rfl, ?_,
    fun tail' htail' => ?_⟩
  · refine .of_long hlong (head?_dropWhile rest) fun hr hmore htail => ?_
    have hall := word_append_dropWhile rest
    rw [hmore, List.nil_append] at hall
    rw [← hall] at htail ⊢
    exact Bool.eq_false_iff.mpr fun hword => hraw ⟨hr, htail, hword⟩
  · have hraw' : ¬ (c = 'r' ∧ (word rest ++ tail').head? = some '#' ∧
        startsWithWord ((word rest ++ tail').drop 1) = true) := by
      rintro ⟨rfl, hmark, hafter⟩
      cases hmore : word rest with
      | nil =>
        rw [hmore] at hmark hafter htail'
        rw [List.nil_append] at hmark hafter
        rw [htail'.raw rfl hmark] at hafter
        cases hafter
      | cons d more =>
        -- The mark would be a character of the word.
        rw [hmore] at hmark
        obtain rfl : d = '#' := Option.some.inj hmark
        have hd : '#' ∈ word rest := by rw [hmore]; exact List.mem_cons_self ..
        exact absurd (List.mem_takeWhile_imp hd) (by decide)
    rw [hfirst _ hraw', word_append (htail'.word c rfl hlong)]

theorem isLong_ofPunctuation {kind : TokenKind} (h : TokenKind.ofPunctuation c = some kind) :
    ¬ isLongStart c = true := by
  unfold TokenKind.ofPunctuation at h
  split at h <;> first | decide | cases h

/-- A character that makes a longer token with one that may follow it. -/
theorem isLocal_pair (d : Char) (one two : TokenKind)
    (hfirst : ∀ cs, first c cs = .ok (if cs.head? = some d then plain two [c, d] else plain one [c]))
    (hlong : isLongStart c = false) (hslash : c ≠ '/') (hcolon : c = ':' → d = ':')
    (hminus : c = '-' → d = '>') (hapart : ∀ tail, Apart [c] tail → tail.head? ≠ some d)
    (h : first c rest = .ok l) : IsLocal c rest l := by
  rw [hfirst] at h
  split at h
  · next hhead =>
    cases h
    rcases rest with _ | ⟨_, rest⟩
    · cases hhead
    · cases hhead
      refine ⟨[d], rest, rfl, rfl, ?_, fun tail' _ => ?_⟩
      · exact .of_closed hlong (fun h => absurd h hslash) (List.cons_ne_nil _ _)
      · rw [hfirst]
        exact congrArg _ (if_pos rfl)
  · next hhead =>
    cases h
    refine ⟨[], rest, rfl, rfl, ?_, fun tail' htail' => ?_⟩
    · refine .of_short (Bool.eq_false_iff.mp hlong) hslash ?_ ?_
      · exact fun hc hcolon' => hhead (hcolon'.trans (congrArg some (hcolon hc).symm))
      · exact fun hc hminus' => hhead (hminus'.trans (congrArg some (hminus hc).symm))
    · rw [hfirst]
      exact congrArg _ (if_neg (hapart tail' htail'))

theorem isLocal_punctuation (hslash : c ≠ '/') (hquote : c ≠ '"') (htick : c ≠ '\'')
    (hdigit : Unicode.isDigit c = false) (hstart : Identifier.isWordStart c = false)
    (h : first c rest = .ok l) : IsLocal c rest l := by
  have hr : c ≠ 'r' := by
    rintro rfl
    cases hstart
  have hfirst : ∀ cs, first c cs = punctuation c cs := fun cs => by
    rw [first_other hslash hquote htick, if_neg (by simp [hdigit]), if_neg (fun h => hr h.1),
      if_neg (by simp [hstart])]
  by_cases hcolon : c = ':'
  · subst hcolon
    refine isLocal_pair ':' .colon .pathSeparator (fun cs => ?_) (by decide) hslash (fun _ => rfl)
      (fun h => absurd h (by decide)) (fun _ htail => htail.colon rfl) h
    rw [hfirst]
    simp [punctuation]
  by_cases hminus : c = '-'
  · subst hminus
    refine isLocal_pair '>' .minus .arrow (fun cs => ?_) (by decide) hslash (fun h => absurd h (by decide))
      (fun _ => rfl) (fun _ htail => htail.minus rfl) h
    rw [hfirst]
    simp [punctuation]
  · rw [hfirst, punctuation, if_neg (by simpa using hcolon), if_neg (by simpa using hminus)] at h
    cases hkind : TokenKind.ofPunctuation c with
    | none =>
      rw [hkind] at h
      cases h
    | some kind =>
      rw [hkind] at h
      cases h
      refine ⟨[], rest, rfl, rfl, ?_, fun tail' _ => first_punctuation hkind⟩
      exact .of_short (isLong_ofPunctuation hkind) hslash (fun h => absurd h hcolon)
        (fun h => absurd h hminus)

end

/-- **Locality.** Every lexeme is read alike in front of whatever does not continue it. -/
theorem first_local {c : Char} {rest : List Char} {l : Lexeme} (h : first c rest = .ok l) :
    IsLocal c rest l := by
  by_cases hslash : c = '/'
  · subst hslash
    by_cases hline : rest.head? = some '/'
    · exact isLocal_slashes hline h
    · by_cases hblock : rest.head? = some '*'
      · exact isLocal_slashStar hblock h
      · rw [first_slash, if_neg hline, if_neg hblock] at h
        cases h
  by_cases hquote : c = '"'
  · subst hquote
    exact isLocal_quote h
  by_cases htick : c = '\''
  · subst htick
    exact isLocal_lifetime h
  by_cases hdigit : Unicode.isDigit c = true
  · exact isLocal_number hslash hquote htick hdigit h
  rw [Bool.not_eq_true] at hdigit
  by_cases hraw : c = 'r' ∧ rest.head? = some '#' ∧ startsWithWord (rest.drop 1) = true
  · obtain ⟨rfl, hmark, hstart⟩ := hraw
    rcases rest with _ | ⟨_, rest⟩
    · cases hmark
    · cases hmark
      exact isLocal_raw hstart h
  by_cases hstart : Identifier.isWordStart c = true
  · exact isLocal_word hslash hquote htick hdigit hraw hstart h
  · exact isLocal_punctuation hslash hquote htick hdigit (Bool.not_eq_true _ ▸ hstart) h

end Typestate.Lexeme
