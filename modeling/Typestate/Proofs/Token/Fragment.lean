import Typestate.Grammar.Verbatim
import Typestate.Proofs.Token.Piece

/-!
Parts of a source. The text from the first of some consecutive tokens to the last is that of the pieces
they come from, comments between them included (`Source.exists_fragment`).
-/

namespace Typestate

open Piece

/-- The pieces of one of the tokens, and of those before it and after it. -/
theorem placed_split {c : Cursor} {ps : List Piece} {before after : List Token} {t : Token}
    (h : placed c ps = before ++ t :: after) :
    ∃ front p back, ps = front ++ p :: back ∧ placed c front = before ∧
      placed (c.advanceBy (spell (front ++ [p])).length) back = after ∧ p.token.isSome = true := by
  induction ps generalizing c before with
  | nil => simp [placed] at h
  | cons p ps ih =>
    have hlater : ∀ {before' : List Token}, placed (c.advanceBy p.whole.length) ps = before' ++ t :: after →
        before = placed c [p] ++ before' → ∃ front q back, p :: ps = front ++ q :: back ∧
          placed c front = before ∧ placed (c.advanceBy (spell (front ++ [q])).length) back = after ∧
          q.token.isSome = true := by
      intro before' h hbefore
      obtain ⟨front, q, back, rfl, hfront, hback, htoken⟩ := ih h
      have hlength : ∀ qs, (spell (p :: qs)).length = p.whole.length + (spell qs).length := by
        intro qs
        rw [spell_cons, whole, ← List.append_assoc, List.length_append]
      refine ⟨p :: front, q, back, rfl, ?_, ?_, htoken⟩
      · rw [hbefore, ← hfront, ← List.singleton_append, placed_append]
        congr 2
        rw [hlength, spell_nil, List.length_nil, Nat.add_zero]
      · rw [List.cons_append, hlength, Cursor.advanceBy_add]
        exact hback
    rw [placed] at h
    cases htoken : p.token with
    | none =>
      rw [htoken] at h
      exact hlater h (by simp [placed, htoken])
    | some content =>
      rw [htoken] at h
      cases before with
      | nil =>
        obtain ⟨ht, hafter⟩ := List.cons.inj h
        refine ⟨[], p, ps, rfl, rfl, ?_, by rw [htoken]; rfl⟩
        rw [← hafter, List.nil_append, spell_cons, spell_nil, List.append_nil]
        rfl
      | cons x before =>
        obtain ⟨hx, hafter⟩ := List.cons.inj h
        exact hlater hafter (by simp [placed, htoken, ← hx])

/-- The pieces from the first of some tokens to the last, without the spaces in front. -/
structure Fragment (src : Source) (taken : List Token) (ps : List Piece) : Prop where
  slice : ∀ first ∈ taken.head?, ∀ last ∈ taken.getLast?, src.slice first.start last.stop = spell ps
  flush : ∀ p ∈ ps.head?, p.gap = []
  closed : ∀ p ∈ ps.getLast?, p.token.isSome = true
  reads : ∃ tail, Reads ps tail
  contents : contents ps = taken.map Token.content

theorem Fragment.textOf {src : Source} {taken : List Token} {ps : List Piece}
    (h : Fragment src taken ps) (hne : taken ≠ []) :
    src.textOf taken = String.ofList (Text.normalize (spell ps)) := by
  have hfirst := List.head?_eq_some_head hne
  have hlast := List.getLast?_eq_some_getLast hne
  unfold Source.textOf
  rw [hfirst, hlast]
  dsimp only
  rw [h.slice _ hfirst _ hlast]

/-- The same pieces with other spaces in front. -/
def setGap (gap : List Char) : List Piece → List Piece
  | [] => []
  | p :: ps => { p with gap } :: ps

theorem Reads.setGap {ps : List Piece} {gap tail : List Char} (h : Reads ps tail)
    (hgap : ∀ c ∈ gap, Lexeme.isSpace c = true) : Reads (setGap gap ps) tail := by
  cases ps with
  | nil => exact h
  | cons p ps => exact ⟨⟨hgap, h.1.text⟩, h.2⟩

theorem contents_setGap (gap : List Char) (ps : List Piece) : contents (setGap gap ps) = contents ps := by
  cases ps with
  | nil => rfl
  | cons p ps => rw [setGap, contents_cons, contents_cons]

/-- What is true of a last piece whatever the spaces in front of it. -/
theorem getLast_setGap {good : Piece → Prop} (hgood : ∀ p gap, good p → good { p with gap })
    {ps : List Piece} (gap : List Char) (h : ∀ p ∈ ps.getLast?, good p) :
    ∀ p ∈ (setGap gap ps).getLast?, good p := by
  rcases ps with _ | ⟨p, _ | ⟨q, ps⟩⟩
  · exact h
  · rintro _ ⟨⟩
    exact hgood p gap (h p rfl)
  · intro r hr
    rw [setGap, List.getLast?_cons_cons] at hr
    exact h r (by rwa [List.getLast?_cons_cons])

theorem placed_cons_of_token {c : Cursor} {p : Piece} {ps : List Piece} {content : Content}
    (h : p.token = some content) : placed c (p :: ps) =
      (c.advanceBy p.gap.length).token p.text.length content.1 content.2 ::
        placed (c.advanceBy p.whole.length) ps := by
  rw [placed, h]
  rfl

theorem head?_placed {c : Cursor} {p : Piece} {ps : List Piece} (h : p.token.isSome = true) :
    ∀ t ∈ (placed c (p :: ps)).head?, t.start = (c.advanceBy p.gap.length).offset := by
  obtain ⟨content, htoken⟩ := Option.isSome_iff_exists.mp h
  rw [placed_cons_of_token htoken]
  rintro _ ⟨⟩
  rfl

theorem getLast?_placed {c : Cursor} {ps : List Piece} {q : Piece} (h : q.token.isSome = true) :
    ∀ t ∈ (placed c (ps ++ [q])).getLast?,
      t.stop = (c.advanceBy ((spell ps).length + q.gap.length)).offset + q.text.length := by
  obtain ⟨content, htoken⟩ := Option.isSome_iff_exists.mp h
  rw [placed_append, placed_cons_of_token htoken, placed, List.getLast?_concat, Cursor.advanceBy_add]
  rintro _ ⟨⟩
  rfl

/-- Some consecutive pieces of a source, the first and the last of which have tokens. -/
theorem Source.fragment_placed {src : Source} {front mid back : List Piece} {tail : List Char}
    (htext : src.text.toList = spell (front ++ (mid ++ back)) ++ tail) (hreads : ∃ tail, Reads mid tail)
    (hhead : ∀ p ∈ mid.head?, p.token.isSome = true) (hlast : ∀ p ∈ mid.getLast?, p.token.isSome = true) :
    Fragment src (placed ((Cursor.start src.text).advanceBy (spell front).length) mid) (setGap [] mid) := by
  have hplaces : ∀ n, n ≤ src.text.toList.length →
      ((Cursor.start src.text).advanceBy n).offset = n := fun n hn => by
    rw [Cursor.offset_advanceBy hn]
    exact Nat.zero_add n
  obtain ⟨tail', hreads⟩ := hreads
  refine ⟨?_, ?_, getLast_setGap (fun _ _ => id) [] hlast, ⟨tail', hreads.setGap nofun⟩, ?_⟩
  · intro first hfirst last hlast'
    cases mid with
    | nil => cases hfirst
    | cons p mid =>
      obtain ⟨inner, q, hmid⟩ : ∃ inner q, p :: mid = inner ++ [q] :=
        ⟨_, _, (List.dropLast_concat_getLast (List.cons_ne_nil p mid)).symm⟩
      have hstart := head?_placed (hhead p rfl) first hfirst
      have hstop := getLast?_placed (hlast q (by rw [hmid, List.getLast?_concat]; rfl)) last
        (by rwa [← hmid])
      have hbody : src.text.toList = (spell front ++ p.gap) ++
          ((p.text ++ spell mid) ++ (spell back ++ tail)) := by
        rw [htext]
        simp
      have hlength : (spell inner).length + q.gap.length + q.text.length =
          p.gap.length + (p.text ++ spell mid).length := by
        have hspell := congrArg (fun ps => (spell ps).length) hmid
        simpa [Nat.add_assoc] using hspell.symm
      have htotal := congrArg List.length hbody
      simp only [List.length_append] at htotal hlength
      rw [← Cursor.advanceBy_add, hplaces _ (by omega)] at hstart
      rw [← Cursor.advanceBy_add, hplaces _ (by omega)] at hstop
      have hwidth : last.stop - first.start = (p.text ++ spell mid).length := by
        rw [hstop, hstart, List.length_append]
        omega
      have hstart' : first.start = (spell front ++ p.gap).length := by
        rw [hstart, List.length_append]
      rw [setGap, spell_cons, List.nil_append, Source.slice, hwidth, hstart', hbody, List.drop_left,
        List.take_left]
  · cases mid with
    | nil => nofun
    | cons p mid =>
      rintro _ ⟨⟩
      rfl
  · rw [contents_setGap, contents_placed]

/-- The pieces that some consecutive tokens come from, with those in front of them and those behind. -/
theorem Source.exists_placed {src : Source} {tokens taken : List Token}
    (h : src.tokenize = .ok tokens) (htaken : taken <:+: tokens.dropLast) (hne : taken ≠ []) :
    ∃ front mid back tail, Reads (mid ++ back) tail ∧
      src.text.toList = spell (front ++ (mid ++ back)) ++ tail ∧ (∀ p ∈ mid.head?, p.token.isSome = true) ∧
      (∀ p ∈ mid.getLast?, p.token.isSome = true) ∧
      taken = placed ((Cursor.start src.text).advanceBy (spell front).length) mid := by
  obtain ⟨all, tail, hall, -, htext, mark, -, rfl⟩ := reads_of_tokenize h
  rw [List.dropLast_concat] at htaken
  obtain ⟨before, after, hplaced⟩ := htaken
  have hlast := List.dropLast_concat_getLast hne
  obtain ⟨t, taken', rfl⟩ := List.exists_cons_of_ne_nil hne
  -- The piece of the first token is found first, and that of the last one from there on.
  have hsplit : placed (Cursor.start src.text) all = before ++ t :: (taken' ++ after) := by
    rw [← hplaced, List.append_assoc]
    rfl
  obtain ⟨front, p, back, rfl, hfront, -, hopen⟩ := placed_split hsplit
  have hfrom : placed ((Cursor.start src.text).advanceBy (spell front).length) (p :: back) =
      t :: taken' ++ after := by
    rw [placed_append, hfront, List.append_assoc] at hplaced
    exact (List.append_cancel_left hplaced).symm
  rw [← hlast, List.append_assoc] at hfrom
  obtain ⟨inner, q, rest, hpieces, hinner, hrest, hclosed⟩ := placed_split hfrom
  have hmiddle : p :: back = (inner ++ [q]) ++ rest := by
    rw [hpieces, List.append_assoc]
    rfl
  have hhead : (inner ++ [q]).head? = some p := by
    cases inner with
    | nil => exact congrArg some (List.cons.inj hmiddle).1.symm
    | cons p' inner => exact congrArg some (List.cons.inj hmiddle).1.symm
  rw [hmiddle] at hall htext
  have htaken : placed ((Cursor.start src.text).advanceBy (spell front).length) (inner ++ [q]) =
      t :: taken' := by
    rw [hmiddle, placed_append, hrest, ← List.append_assoc, hlast] at hfrom
    exact List.append_cancel_right hfrom
  refine ⟨front, inner ++ [q], rest, tail, (reads_append.mp hall).2, htext, ?_, ?_, htaken.symm⟩
  · intro r hr
    rw [hhead] at hr
    cases hr
    exact hopen
  · intro r hr
    rw [List.getLast?_concat] at hr
    cases hr
    exact hclosed

/-- **Fragments.** Tokens in a row are those of a fragment of their source. -/
theorem Source.exists_fragment {src : Source} {tokens taken : List Token}
    (h : src.tokenize = .ok tokens) (htaken : taken <:+: tokens.dropLast) (hne : taken ≠ []) :
    ∃ ps, Fragment src taken ps := by
  obtain ⟨front, mid, back, tail, hreads, htext, hhead, hlast, rfl⟩ := exists_placed h htaken hne
  exact ⟨_, fragment_placed htext ⟨_, (reads_append.mp hreads).1⟩ hhead hlast⟩

end Typestate
