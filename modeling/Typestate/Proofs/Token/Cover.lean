import Typestate.Proofs.Token.Fragment
import Typestate.Proofs.Token.Place
import Typestate.Proofs.Token.Squeezing

/-!
The tokens of a text cover it. They stand one behind the other up to the end of the text, between them are
only spaces and comments that are no documentation, and each has the value that its own text gives
(`Source.tokenize_covers`). Where a comment ends is as the lexer reads it.
-/

namespace Typestate

open Piece

namespace Lexeme

/-! ## Block comments -/

/-- What a character adds to the comments that are open, with the character behind it: one if the two
open a comment, and one less if they close one. A character may belong to two delimiters. -/
def turn (c : Char) (next : Option Char) : Int :=
  if c = '/' ∧ next = some '*' then 1 else if c = '*' ∧ next = some '/' then -1 else 0

/-- How many more comments are opened in a text than closed. -/
def opened : List Char → Int
  | [] => 0
  | c :: rest => turn c rest.head? + opened rest

/-- The text closes a comment and `depth` comments around it, and the last of them at its end only. A comment is what
the lexer takes for one, where a character may belong to two delimiters. Where none may, it ends at its `nestedEnd`,
which can be another place. -/
def Closes (depth : Nat) (text : List Char) : Prop :=
  opened text = -(depth + 1) ∧ ∀ front back, text = front ++ back → back ≠ [] → -depth ≤ opened front

theorem closes_end : Closes 0 ['*', '/'] := by
  refine ⟨by decide, fun front back hcs hback => ?_⟩
  rcases front with _ | ⟨c, _ | ⟨d, front⟩⟩
  · simp [opened]
  · simp [opened, turn]
  · simp only [List.cons_append, List.cons.injEq, List.nil_eq, List.append_eq_nil_iff] at hcs
    exact absurd hcs.2.2.2 hback

/-- The depth behind a character is that before it and what the character adds. -/
theorem Closes.cons {depth depth' : Nat} {c : Char} {cs : List Char} (h : Closes depth' cs)
    (hturn : turn c cs.head? + depth = depth') : Closes depth (c :: cs) := by
  obtain ⟨hall, hfronts⟩ := h
  refine ⟨by rw [opened, hall]; omega, fun front back hcs hback => ?_⟩
  rcases front with _ | ⟨d, _ | ⟨e, front⟩⟩
  · simp [opened]
  · simp [opened, turn]
  · obtain ⟨rfl, hrest⟩ := List.cons.inj hcs
    have hlater := hfronts (e :: front) back hrest hback
    have hhead : cs.head? = some e := by rw [hrest]; rfl
    rw [hhead] at hturn
    rw [opened, List.head?_cons]
    omega

/-- Where the inside of a comment ends, all comments that it is inside of are closed, and not before. -/
theorem closes_of_commentBody {depth : Nat} {cs body : List Char}
    (h : commentBody depth cs = some (body, [])) : Closes depth cs := by
  induction cs generalizing depth body with
  | nil => cases h
  | cons c cs ih =>
    have hstep : ∀ {depth' : Nat}, (commentBody depth' cs).map (prepend c) = some (body, []) →
        turn c cs.head? + depth = depth' → Closes depth (c :: cs) := by
      intro depth' hmap hturn
      obtain ⟨⟨body', rest'⟩, hbody, heq⟩ := Option.map_eq_some_iff.mp hmap
      cases heq
      exact (ih hbody).cons hturn
    unfold commentBody at h
    split at h
    · next hopen =>
      simp only [Bool.and_eq_true, beq_iff_eq] at hopen
      refine hstep h ?_
      simp only [turn, if_pos hopen]
      omega
    next hopen =>
    simp only [Bool.and_eq_true, beq_iff_eq] at hopen
    split at h
    · next hclose =>
      simp only [Bool.and_eq_true, beq_iff_eq] at hclose
      split at h
      · next hdepth =>
        obtain ⟨rfl, hslash⟩ := hclose
        obtain ⟨rest, rfl⟩ := List.head?_eq_some_iff.mp hslash
        obtain rfl : rest = [] := (Prod.mk.inj (Option.some.inj h)).2
        obtain rfl : depth = 0 := beq_iff_eq.mp hdepth
        exact closes_end
      · next hdepth =>
        have hpos : depth ≠ 0 := by simpa using hdepth
        refine hstep h ?_
        simp only [turn, if_neg hopen, if_pos hclose]
        omega
    · next hclose =>
      simp only [Bool.and_eq_true, beq_iff_eq] at hclose
      refine hstep h ?_
      simp only [turn, if_neg hopen, if_neg hclose]
      omega

/-! ## Gaps -/

/-- A whole comment in front of a text, which is no documentation: one that goes on to the end of its
line, or one that is closed where it ends. -/
inductive Comment : List Char → List Char → Prop
  | line {rest after : List Char} (hrest : '\n' ∉ rest) (hafter : ∀ c ∈ after.head?, c = '\n')
    (hdoc : isDocLine ('/' :: '/' :: rest) = false) : Comment ('/' :: '/' :: rest) after
  | block {inner after : List Char} (hcloses : Closes 0 inner)
    (hdoc : isDocBlock ('/' :: '*' :: inner) = false) : Comment ('/' :: '*' :: inner) after

/-- Nothing but spaces and whole comments, in front of a text. -/
inductive Gap : List Char → List Char → Prop
  | nil {after : List Char} : Gap [] after
  | space {c : Char} {gap after : List Char} (hc : isSpace c = true) (h : Gap gap after) :
    Gap (c :: gap) after
  | comment {text gap after : List Char} (hcomment : Comment text (gap ++ after)) (h : Gap gap after) :
    Gap (text ++ gap) after

theorem gap_of_spaces {spaces : List Char} (h : ∀ c ∈ spaces, isSpace c = true) (after : List Char) :
    Gap spaces after := by
  induction spaces with
  | nil => exact .nil
  | cons c spaces ih =>
    obtain ⟨hc, hspaces⟩ := List.forall_mem_cons.mp h
    exact .space hc (ih hspaces)

theorem Gap.append {gap more after : List Char} (h : Gap gap (more ++ after)) (hmore : Gap more after) :
    Gap (gap ++ more) after := by
  generalize hall : more ++ after = all at h
  induction h with
  | nil => exact hmore
  | space hc _ ih => exact .space hc (ih hall)
  | comment hcomment _ ih =>
    subst hall
    rw [List.append_assoc]
    refine .comment ?_ (ih rfl)
    rwa [List.append_assoc]

/-! ## Values -/

/-- The value of a token of some kind with some text: what is between the delimiters of documentation,
without the carriage returns at the end of a line, what a string in quotes stands for, and else the text
itself. -/
inductive Valued : TokenKind → List Char → List Char → Prop
  | line {value : List Char} {returns : Nat} (hvalue : '\n' ∉ value) (hlast : value.getLast? ≠ some '\r')
    (hdoc : isDocLine ('/' :: '/' :: '/' :: (value ++ List.replicate returns '\r')) = true) :
    Valued .doc ('/' :: '/' :: '/' :: (value ++ List.replicate returns '\r')) value
  | block {value : List Char} (hcloses : Closes 0 ('*' :: (value ++ ['*', '/'])))
    (hdoc : isDocBlock ('/' :: '*' :: '*' :: (value ++ ['*', '/'])) = true) :
    Valued .doc ('/' :: '*' :: '*' :: (value ++ ['*', '/'])) value
  | string {inner value : List Char} (h : stringBody false inner = .closed value []) :
    Valued .string ('"' :: inner) value
  | same {kind : TokenKind} {text : List Char} (hdoc : kind ≠ .doc) (hstring : kind ≠ .string) :
    Valued kind text text

theorem dropReturns_append_replicate {value : List Char} (h : value.getLast? ≠ some '\r') (n : Nat) :
    dropReturns (value ++ List.replicate n '\r') = value := by
  have hlast : ∀ d ∈ value.getLast?, d ≠ '\r' := by
    rintro d hd rfl
    exact h hd
  have hreturns : ∀ d ∈ List.replicate n '\r', (d == '\r') = true := by simp
  conv_rhs => rw [← dropReturns_of_last hlast]
  unfold dropReturns
  rw [List.reverse_append, List.reverse_replicate, List.dropWhile_append_of_pos hreturns]

/-- A text is what is left without the carriage returns at its end, and carriage returns. -/
theorem exists_returns (cs : List Char) : (dropReturns cs).getLast? ≠ some '\r' ∧
    ∃ n, cs = dropReturns cs ++ List.replicate n '\r' := by
  refine ⟨fun h => ?_, (cs.reverse.takeWhile (· == '\r')).length, ?_⟩
  · rw [dropReturns, List.getLast?_reverse] at h
    exact absurd (head?_dropWhile cs.reverse '\r' h) (by decide)
  · have hreturns : cs.reverse.takeWhile (· == '\r') =
        List.replicate (cs.reverse.takeWhile (· == '\r')).length '\r' :=
      List.eq_replicate_of_mem fun d hd => by simpa using List.mem_takeWhile_imp hd
    have hsplit := (List.takeWhile_append_dropWhile (p := (· == '\r')) (l := cs.reverse)).symm
    rw [hreturns] at hsplit
    have hrev := congrArg List.reverse hsplit
    rwa [List.reverse_reverse, List.reverse_append, List.reverse_replicate] at hrev

/-- **Determination.** A token's kind and text leave no choice of its value. -/
theorem Valued.unique {kind : TokenKind} {text value value' : List Char} (h : Valued kind text value)
    (h' : Valued kind text value') : value = value' := by
  generalize hkind : kind = kind' at h'
  generalize htext : text = text' at h'
  cases h with
  | @line value n _ hlast _ =>
    cases h' with
    | @line value' n' _ hlast' _ =>
      have hsame : value ++ List.replicate n '\r' = value' ++ List.replicate n' '\r' := by
        simpa using htext
      rw [← dropReturns_append_replicate hlast n, hsame, dropReturns_append_replicate hlast']
    | block => simp at htext
    | string => cases hkind
    | same hdoc _ => exact absurd hkind.symm hdoc
  | block =>
    cases h' with
    | line => simp at htext
    | block => simpa using htext
    | string => cases hkind
    | same hdoc _ => exact absurd hkind.symm hdoc
  | string hvalue =>
    cases h' with
    | line => cases hkind
    | block => cases hkind
    | string hvalue' =>
      obtain rfl := (List.cons.inj htext).2
      rw [hvalue] at hvalue'
      exact (StringEnd.closed.inj hvalue').1
    | same _ hstring => exact absurd hkind.symm hstring
  | same hdoc hstring =>
    cases h' with
    | line => exact absurd hkind hdoc
    | block => exact absurd hkind hdoc
    | string => exact absurd hkind hstring
    | same => exact htext

/-! ## Lexemes -/

section
variable {c : Char} {more after value : List Char} {kind : TokenKind}

theorem comment_of_first (h : first c (more ++ after) = .ok ⟨none, more.length⟩) :
    Comment (c :: more) after := by
  have hshape := shape_of_first_append h
  have hapart := (first_of_apart h).1
  generalize htext : c :: more = text at hshape hapart
  generalize htoken : (none : Option Content) = token at hshape
  cases hshape with
  | @line rest hrest =>
    refine .line hrest (hapart.line ⟨rest, rfl⟩) ?_
    split at htoken
    · cases htoken
    · next hdoc => simpa using hdoc
  | block hbody =>
    refine .block (closes_of_commentBody hbody) ?_
    split at htoken
    · cases htoken
    · next hdoc => simpa using hdoc
  | string => cases htoken
  | plain => cases htoken

/-- Documentation has the value that its text gives. -/
theorem valued_of_slash (h : first '/' (more ++ after) = .ok ⟨some (kind, value), more.length⟩) :
    Valued kind ('/' :: more) value ∧ kind ≠ .endOfInput := by
  have hshape := shape_of_first_append h
  generalize htext : '/' :: more = text at hshape
  generalize htoken : some (kind, value) = token at hshape
  cases hshape with
  | @line rest hrest =>
    split at htoken
    · next hdoc =>
      cases htoken
      rcases rest with _ | ⟨d, rest⟩
      · cases hdoc
      obtain rfl : d = '/' := by
        by_contra hd
        simp [isDocLine, hd] at hdoc
      obtain ⟨hlast, n, hreturns⟩ := exists_returns rest
      rw [List.drop_succ_cons, List.drop_zero]
      rw [hreturns] at hdoc hrest ⊢
      rw [dropReturns_append_replicate hlast]
      refine ⟨.line ?_ hlast hdoc, by decide⟩
      exact fun hmem => hrest (List.mem_cons_of_mem _ (List.mem_append_left _ hmem))
    · cases htoken
  | @block inner body hbody =>
    split at htoken
    · next hdoc =>
      cases htoken
      have hinner : inner = body ++ ['*', '/'] := commentBody_append hbody
      have hcloses := closes_of_commentBody hbody
      have hstar : inner = '*' :: (body.drop 1 ++ ['*', '/']) := by
        conv_lhs => rw [hinner, eq_cons_drop_of_isDocBlock hinner hdoc]
        rfl
      rw [hstar] at hdoc hcloses ⊢
      exact ⟨.block hcloses hdoc, by decide⟩
    · cases htoken
  | string => cases htext
  | plain _ hslash => exact absurd (congrArg List.head? htext).symm (by simpa using hslash)

theorem written_of_token (h : first c (more ++ after) = .ok ⟨some (kind, value), more.length⟩) (hslash : c ≠ '/')
    (hquote : c ≠ '"') : value = c :: more ∧ Written kind value := by
  have hread := (first_of_apart h).2 [] (.nil _)
  rw [List.append_nil] at hread
  obtain ⟨kind', text, hl, htext, hwritten⟩ := written_of_first hread hslash hquote
  obtain ⟨htoken, hmore⟩ := Lexeme.mk.inj hl
  cases htoken
  have hlength : value.length = (c :: more).length := by
    have hpos := List.length_pos_of_ne_nil hwritten.ne_nil
    rw [List.length_cons, hmore]
    omega
  exact ⟨htext.eq_of_length hlength, hwritten⟩

/-- A token has the value that its text gives, and is no mark of the end. -/
theorem valued_of_first (h : first c (more ++ after) = .ok ⟨some (kind, value), more.length⟩) :
    Valued kind (c :: more) value ∧ kind ≠ .endOfInput := by
  by_cases hslash : c = '/'
  · subst hslash
    exact valued_of_slash h
  by_cases hquote : c = '"'
  · subst hquote
    have hread := (first_of_apart h).2 [] (.nil _)
    rw [List.append_nil] at hread
    obtain ⟨value', hbody, htoken⟩ := exists_stringBody_of_first hread
    cases htoken
    exact ⟨.string hbody, by decide⟩
  · obtain ⟨rfl, hwritten⟩ := written_of_token h hslash hquote
    obtain ⟨hdoc, hstring, hend⟩ := hwritten.kind_ne
    exact ⟨.same hdoc hstring, hend⟩

end

end Lexeme

/-! ## Covering -/

open Lexeme (Gap Valued)

/-- The tokens cover a text: they end with the mark of its end, they stand one behind the other, between
them is nothing but spaces and comments, and the value of each is the one that its own text gives. -/
structure Source.Covered (src : Source) (tokens : List Token) : Prop where
  ended : ∃ ts mark, tokens = ts ++ [mark] ∧ mark.kind = .endOfInput ∧
    mark.start = src.text.toList.length ∧ mark.stop = src.text.toList.length ∧
    ∀ t ∈ ts, t.kind ≠ .endOfInput ∧ t.start < t.stop
  ordered : tokens.Pairwise fun t u => t.stop ≤ u.start
  gaps : ∀ front t back, tokens = front ++ t :: back →
    Gap (src.slice (front.getLast?.elim 0 (·.stop)) t.start) (src.text.toList.drop t.start)
  values : ∀ t ∈ tokens, Valued t.kind (src.slice t.start t.stop) t.value.toList ∧
    ∀ value, Valued t.kind (src.slice t.start t.stop) value → value = t.value.toList

/-- The tokens cover a text from an offset on. -/
def Covers (src : Source) : Nat → List Token → Prop
  | _, [] => True
  | place, t :: ts => place ≤ t.start ∧ t.start ≤ t.stop ∧
    Gap (src.slice place t.start) (src.text.toList.drop t.start) ∧
    Valued t.kind (src.slice t.start t.stop) t.value.toList ∧ Covers src t.stop ts

namespace Covers

variable {src : Source} {place : Nat} {tokens : List Token}

theorem le_start (h : Covers src place tokens) : ∀ t ∈ tokens, place ≤ t.start := by
  induction tokens generalizing place with
  | nil => nofun
  | cons t ts ih =>
    obtain ⟨hplace, hstop, -, -, hts⟩ := h
    intro u hu
    rcases List.mem_cons.mp hu with rfl | hu
    · exact hplace
    · have hlater := ih hts u hu
      omega

theorem ordered (h : Covers src place tokens) : tokens.Pairwise fun t u => t.stop ≤ u.start := by
  induction tokens generalizing place with
  | nil => exact .nil
  | cons t ts ih =>
    obtain ⟨-, -, -, -, hts⟩ := h
    exact .cons hts.le_start (ih hts)

theorem gap (h : Covers src place tokens) {front back : List Token} {t : Token}
    (htokens : tokens = front ++ t :: back) :
    Gap (src.slice (front.getLast?.elim place (·.stop)) t.start) (src.text.toList.drop t.start) := by
  subst htokens
  induction front generalizing place with
  | nil => exact h.2.2.1
  | cons u front ih =>
    have hlater := ih h.2.2.2.2
    rw [List.getLast?_cons]
    cases hlast : front.getLast? <;> simpa [hlast] using hlater

theorem valued (h : Covers src place tokens) :
    ∀ t ∈ tokens, Valued t.kind (src.slice t.start t.stop) t.value.toList := by
  induction tokens generalizing place with
  | nil => nofun
  | cons t ts ih =>
    obtain ⟨-, -, -, hvalue, hts⟩ := h
    intro u hu
    rcases List.mem_cons.mp hu with rfl | hu
    · exact hvalue
    · exact ih hts u hu

end Covers

/-- A token behind a gap, with the tokens behind it. -/
theorem covers_cons {src : Source} {done gap text rest : List Char} {t : Token} {ts : List Token}
    (htext : src.text.toList = done ++ (gap ++ (text ++ rest)))
    (hstart : t.start = done.length + gap.length) (hstop : t.stop = t.start + text.length)
    (hgap : Gap gap (text ++ rest)) (hvalue : Valued t.kind text t.value.toList)
    (hts : Covers src t.stop ts) : Covers src done.length (t :: ts) := by
  have hslice : ∀ {front mid back : List Char}, src.text.toList = front ++ (mid ++ back) →
      src.slice front.length (front.length + mid.length) = mid := by
    intro front mid back h
    rw [Source.slice, h, List.drop_left, Nat.add_sub_cancel_left, List.take_left]
  have hfront : t.start = (done ++ gap).length := by rw [hstart, List.length_append]
  rw [← List.append_assoc] at htext
  have hdrop : src.text.toList.drop t.start = text ++ rest := by rw [hfront, htext, List.drop_left]
  refine ⟨by omega, by omega, ?_, ?_, hts⟩
  · rw [hdrop, hstart, hslice (by rw [htext, List.append_assoc])]
    exact hgap
  · rw [hstop, hfront, hslice htext]
    exact hvalue

/-- The tokens of pieces, and the mark of the end, cover the text from the last token before them on, if
there is nothing but a gap in between. -/
theorem covers_placed {src : Source} {ps : List Piece} {tail : List Char} {mark : Token}
    (hreads : Reads ps tail) (htail : ∀ c ∈ tail, Lexeme.isSpace c = true)
    (hmark : mark.start = src.text.toList.length ∧ mark.stop = src.text.toList.length)
    (hvalue : Valued mark.kind [] mark.value.toList) {done gap : List Char} {c : Cursor}
    (htext : src.text.toList = done ++ (gap ++ (spell ps ++ tail)))
    (hrest : c.rest = spell ps ++ tail) (hoffset : c.offset = done.length + gap.length)
    (hgap : Gap gap (spell ps ++ tail)) : Covers src done.length (placed c ps ++ [mark]) := by
  induction ps generalizing done gap c with
  | nil =>
    have hall : Gap (gap ++ tail) [] := by
      refine Lexeme.Gap.append ?_ (Lexeme.gap_of_spaces htail [])
      rwa [List.append_nil]
    have hlength : src.text.toList.length = done.length + (gap ++ tail).length := by
      rw [htext]
      simp
    refine covers_cons (by rw [htext]; simp) (hmark.1.trans hlength) ?_ hall hvalue trivial
    rw [hmark.1, hmark.2]
    rfl
  | cons p ps ih =>
    obtain ⟨⟨hspaces, ch, more, hp, hfirst⟩, hps⟩ := hreads
    have hwhole : c.rest = p.whole ++ (spell ps ++ tail) := by
      rw [hrest, spell_cons, whole]
      simp
    have hplace : ∀ n, n ≤ p.whole.length → (c.advanceBy n).offset = c.offset + n := fun n hn =>
      Cursor.offset_advanceBy (by rw [hwhole, List.length_append]; omega)
    have hlength : p.whole.length = p.gap.length + p.text.length := List.length_append
    have hnext := Cursor.rest_advanceBy_append hwhole
    rw [spell_cons, List.append_assoc, List.append_assoc] at htext hgap
    have hgap' : Gap (gap ++ p.gap) (p.text ++ (spell ps ++ tail)) :=
      hgap.append (Lexeme.gap_of_spaces hspaces _)
    cases htoken : p.token with
    | none =>
      -- A comment makes the gap longer.
      rw [htoken] at hfirst
      have hcomment := Lexeme.comment_of_first hfirst
      rw [← hp] at hcomment
      have hlonger : Gap (gap ++ p.gap ++ p.text) (spell ps ++ tail) := by
        refine hgap'.append ?_
        rw [← List.append_nil p.text]
        exact .comment hcomment .nil
      have hlater : Covers src done.length (placed (c.advanceBy p.whole.length) ps ++ [mark]) :=
        ih hps (by rw [htext]; simp) hnext
          (by rw [hplace _ (Nat.le_refl _), hoffset]; simp; omega) hlonger
      simpa [placed, htoken] using hlater
    | some content =>
      rw [htoken] at hfirst
      obtain ⟨hvalued, -⟩ := Lexeme.valued_of_first hfirst
      rw [← hp] at hvalued
      have hstart := hplace p.gap.length (by omega)
      have hlater : Covers src (done ++ (gap ++ p.gap) ++ p.text).length
          (placed (c.advanceBy p.whole.length) ps ++ [mark]) :=
        ih hps (by rw [htext]; simp) hnext
          (by rw [hplace _ (Nat.le_refl _), hoffset]; simp; omega) Lexeme.Gap.nil
      have hstop : (done ++ (gap ++ p.gap) ++ p.text).length =
          (c.advanceBy p.gap.length).offset + p.text.length := by
        rw [hstart, hoffset]
        simp
        omega
      rw [hstop] at hlater
      rw [placed_cons_of_token htoken]
      refine covers_cons (by rw [htext]; simp) ?_ rfl hgap' ?_ hlater
      · simp [Cursor.token, hstart, hoffset, Nat.add_assoc]
      · rwa [Cursor.token, String.toList_ofList]

/-- The tokens of pieces have characters, and none of them marks the end. -/
theorem token_of_placed {ps : List Piece} {tail : List Char} (hreads : Reads ps tail) (c : Cursor) :
    ∀ t ∈ placed c ps, t.kind ≠ .endOfInput ∧ t.start < t.stop := by
  induction ps generalizing c with
  | nil => nofun
  | cons p ps ih =>
    obtain ⟨⟨-, ch, more, hp, hfirst⟩, hps⟩ := hreads
    intro t ht
    cases htoken : p.token with
    | none => exact ih hps _ t (by simpa [placed, htoken] using ht)
    | some content =>
      rw [htoken] at hfirst
      rw [placed_cons_of_token htoken] at ht
      rcases List.mem_cons.mp ht with rfl | ht
      · refine ⟨(Lexeme.valued_of_first hfirst).2, ?_⟩
        simp [Cursor.token, hp]
      · exact ih hps _ t ht

/-- What is read without a complaint is read up to the end, and the mark of the end stands there. -/
theorem run_ended {src : Source} {c : Cursor} (h : (Lexing.run src c).error = none) :
    (Lexing.run src c).cursor.rest = [] ∧
      (Lexing.run src c).tokens.getLast? = some (Lexing.run src c).cursor.endToken := by
  fun_induction Lexing.run src c with
  | case1 c hrest => exact ⟨hrest, rfl⟩
  | case2 => cases h
  | case3 c ch rest hrest lexeme hfirst ih =>
    obtain ⟨hend, hlast⟩ := ih h
    exact ⟨hend, by rw [Lexing.prepend, List.getLast?_append, hlast]; rfl⟩

/-- **Covering.** The tokens of every text that has tokens cover it. -/
theorem Source.tokenize_covers {src : Source} {tokens : List Token} (h : src.tokenize = .ok tokens) :
    src.Covered tokens := by
  obtain ⟨ps, tail, hps, htail, htext, mark, -, rfl⟩ := reads_of_tokenize h
  obtain ⟨rfl, hoffset⟩ : mark = (Lexing.run src (Cursor.start src.text)).cursor.endToken ∧
      (Lexing.run src (Cursor.start src.text)).cursor.offset = src.text.toList.length := by
    have hrun : (Lexing.run src (Cursor.start src.text)).error = none ∧
        (Lexing.run src (Cursor.start src.text)).tokens =
          placed (Cursor.start src.text) ps ++ [mark] := by
      unfold tokenize at h
      split at h
      · next heq => exact ⟨by rw [heq], by rw [heq]; exact Except.ok.inj h⟩
      · cases h
    obtain ⟨hrest, hlast⟩ := run_ended hrun.1
    obtain ⟨hplace, -⟩ := inPlace_run (Cursor.inPlace_start src)
    rw [hrun.2, List.getLast?_concat] at hlast
    refine ⟨Option.some.inj hlast, hplace.offset.antisymm ?_⟩
    rw [hplace.rest] at hrest
    exact List.drop_eq_nil_iff.mp hrest
  have hvalue : Valued .endOfInput [] ("" : String).toList := .same (by decide) (by decide)
  have hnone : src.text.toList = [] ++ ([] ++ (spell ps ++ tail)) := htext
  have hcovers : Covers src ([] : List Char).length (placed (Cursor.start src.text) ps ++
      [(Lexing.run src (Cursor.start src.text)).cursor.endToken]) :=
    covers_placed hps htail ⟨hoffset, hoffset⟩ hvalue hnone htext rfl .nil
  exact {
    ended := ⟨_, _, rfl, rfl, hoffset, hoffset, token_of_placed hps _⟩
    ordered := hcovers.ordered
    gaps := fun _ _ _ htokens => hcovers.gap htokens
    values := fun t ht => ⟨hcovers.valued t ht, fun _ hvalue => hvalue.unique (hcovers.valued t ht)⟩ }

/-- A token of every sort, documentation of both forms, and comments of both forms between them. -/
def notedArrow : Source :=
  { text := "/// opens\r\nr#A /* x /* y */ */ -> 'a 7 /** wide */ \"n\\t\" // end" }

theorem notedArrow_covered : ∃ tokens, notedArrow.tokenize = .ok tokens ∧
    tokens.map Token.content = [(.doc, " opens".toList), (.identifier, "r#A".toList),
      (.arrow, "->".toList), (.lifetime, "'a".toList), (.number, "7".toList), (.doc, " wide ".toList),
      (.string, "n\t".toList), (.endOfInput, [])] ∧ notedArrow.Covered tokens := by
  have hcontents : notedArrow.tokenize.toOption.map (·.map Token.content) =
      some [(.doc, " opens".toList), (.identifier, "r#A".toList), (.arrow, "->".toList),
        (.lifetime, "'a".toList), (.number, "7".toList), (.doc, " wide ".toList),
        (.string, "n\t".toList), (.endOfInput, [])] := by decide +kernel
  cases h : notedArrow.tokenize with
  | error e =>
    rw [h] at hcontents
    cases hcontents
  | ok tokens =>
    rw [h] at hcontents
    exact ⟨tokens, rfl, Option.some.inj hcontents, Source.tokenize_covers h⟩

end Typestate
