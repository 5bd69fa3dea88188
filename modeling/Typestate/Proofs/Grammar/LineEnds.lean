import Typestate.Proofs.Grammar.MirroredDocument
import Typestate.Proofs.Token.LineEnds

/-!
Machines in texts whose lines end with a carriage return and a line feed. Such a text is read as a machine if
the text with line feeds alone is and no string in it has a line that ends with a backslash, and then as the
same one, but that a carriage return may stand at the end of a line of a doc comment or a string that is not the
last (`Source.parse_withReturns`).
-/

namespace Typestate

open Text (withReturns Widened)

/-- Reading the other way round. -/
def Mirror.flip {src src' : Source} (m : Mirror src src') : Mirror src' src where
  token t' t := m.token t t'
  fragment f' f := m.fragment f f'
  kind h := (m.kind h).symm
  value h hdoc hstring := (m.value h (m.kind h ▸ hdoc) (m.kind h ▸ hstring)).symm
  fragments h := (m.fragments h).flip
  indented := m.indented
  text h := (m.text h.flip).symm

/-! ## Corresponding tokens -/

/-- The token is a doc comment or a string that goes on in another line. -/
def Token.Broken (src : Source) (t : Token) : Prop :=
  (t.kind = .doc ∨ t.kind = .string) ∧ '\n' ∈ src.slice t.start t.stop

instance (src : Source) (t : Token) : Decidable (t.Broken src) := inferInstanceAs (Decidable (_ ∧ _))

namespace Token.Returned

variable {src : Source} {t t' : Token}

theorem kind_value (h : t.Returned src t') : t'.kind = t.kind ∧
    (t'.value = t.value ∨ t.Broken src ∧ Widened t.value.toList t'.value.toList) := by
  have hcontent := h.content
  unfold Token.content at hcontent
  generalize hv : t.value.toList = value at hcontent
  generalize hv' : t'.value.toList = value' at hcontent
  generalize hk : t.kind = kind at hcontent
  generalize hk' : t'.kind = kind' at hcontent
  cases hcontent with
  | same => exact ⟨rfl, .inl (String.toList_inj.mp (hv'.trans hv.symm))⟩
  | widened hkind hline hwidened => exact ⟨rfl, .inr ⟨⟨hk ▸ hkind, hline⟩, hwidened⟩⟩

theorem value_eq (h : t.Returned src t') (hbroken : ¬ t.Broken src) : t'.value = t.value :=
  h.kind_value.2.resolve_right fun hwidened => hbroken hwidened.1

/-- The fragments of documentation are the same but for carriage returns at their ends. -/
theorem fragments (h : t.Returned src t') :
    List.Forall₂ Text.Returned (docFragments t.value) (docFragments t'.value) := by
  rcases h.kind_value.2 with hvalue | ⟨-, hwidened⟩
  · rw [hvalue]
    exact List.forall₂_same.mpr fun line _ => .refl line
  · exact hwidened.lines

end Token.Returned

namespace Source

variable {src src' : Source}

theorem returnedOffset_slice {start stop : Nat} (h : start ≤ stop) :
    src.returnedOffset stop = src.returnedOffset start + (withReturns (src.slice start stop)).length := by
  obtain ⟨n, rfl⟩ := Nat.exists_eq_add_of_le h
  rw [returnedOffset, List.take_add, Text.withReturns_append, List.length_append, slice, Nat.add_sub_cancel_left]
  rfl

theorem drop_returnedOffset (htext : src'.text.toList = withReturns src.text.toList) (offset : Nat) :
    src'.text.toList.drop (src.returnedOffset offset) = withReturns (src.text.toList.drop offset) := by
  rw [htext, ← List.take_append_drop offset src.text.toList, Text.withReturns_append, List.take_append_drop,
    returnedOffset, List.drop_left]

/-- A text between two places has the same words with carriage returns. -/
theorem normalize_slice_returned (htext : src'.text.toList = withReturns src.text.toList) {start stop stop' : Nat}
    (hstop : stop' = src.returnedOffset stop ∨
      stop' = src.returnedOffset stop + 1 ∧ (src.text.toList.drop stop).head? = some '\n') :
    Text.normalize (src'.slice (src.returnedOffset start) stop') = Text.normalize (src.slice start stop) := by
  rcases Nat.lt_or_ge stop start with hlt | hle
  · -- Nothing is between them.
    have hback := @returnedOffset_slice src _ _ (Nat.le_of_lt hlt)
    have hempty : src.slice start stop = [] := by
      rw [slice, Nat.sub_eq_zero_of_le (Nat.le_of_lt hlt), List.take_zero]
    have hempty' : stop' - src.returnedOffset start = 0 := by
      rcases hstop with rfl | ⟨rfl, hline⟩
      · omega
      · obtain ⟨after, hafter⟩ := List.head?_eq_some_iff.mp hline
        obtain ⟨n, hn⟩ := Nat.exists_eq_succ_of_ne_zero (Nat.sub_ne_zero_of_lt hlt)
        have hslice : src.slice stop start = '\n' :: after.take n := by rw [slice, hafter, hn]; rfl
        rw [hslice, Text.withReturns_newline, List.length_cons, List.length_cons] at hback
        omega
    rw [hempty, slice, hempty', List.take_zero]
  · have hsize := @returnedOffset_slice src _ _ hle
    have hsplit : src.text.toList.drop start = src.slice start stop ++ src.text.toList.drop stop := by
      have hdrop : src.text.toList.drop stop = (src.text.toList.drop start).drop (stop - start) := by
        rw [List.drop_drop, Nat.add_sub_cancel' hle]
      rw [hdrop, slice, List.take_append_drop]
    rw [slice, drop_returnedOffset htext, hsplit, Text.withReturns_append]
    rcases hstop with rfl | ⟨rfl, hline⟩
    · rw [hsize, Nat.add_sub_cancel_left, List.take_left, Text.normalize_withReturns]
    · obtain ⟨after, hafter⟩ := List.head?_eq_some_iff.mp hline
      rw [hsize, Nat.add_assoc, Nat.add_sub_cancel_left, hafter, Text.withReturns_newline, List.take_length_add_append,
        List.take_succ_cons, List.take_zero, Text.normalize_append_blanks (List.forall_mem_singleton.mpr rfl),
        Text.normalize_withReturns]

theorem textOf_returned (htext : src'.text.toList = withReturns src.text.toList) {ts ts' : List Token}
    (h : List.Forall₂ (Token.Returned src) ts ts') : src'.textOf ts' = src.textOf ts := by
  have hhead : ∀ {ts ts' : List Token}, List.Forall₂ (Token.Returned src) ts ts' →
      Option.Rel (Token.Returned src) ts.head? ts'.head? := by
    rintro _ _ (_ | ⟨ht, _⟩)
    · exact .none
    · exact .some ht
  have hfirst := hhead h
  have hlast := hhead (List.rel_reverse h)
  rw [List.head?_reverse, List.head?_reverse] at hlast
  unfold textOf
  generalize ts.head? = first at hfirst
  generalize ts'.head? = first' at hfirst
  generalize ts.getLast? = last at hlast
  generalize ts'.getLast? = last' at hlast
  cases hfirst with
  | none => rfl
  | @some first first' hfirst =>
    cases hlast with
    | none => rfl
    | @some last last' hlast =>
      have hwords := @normalize_slice_returned _ _ htext first.start _ _ hlast.stop
      dsimp only
      rw [hfirst.start, hwords]

end Source

/-- The tokens of a text and those with carriage returns, if their documentation is related. -/
def Mirror.withReturns {src src' : Source} (htext : src'.text.toList = withReturns src.text.toList)
    (fragment : String → String → Prop)
    (hindented : ∀ {a b : String}, fragment a b → fragment (" " ++ a) (" " ++ b)) : Mirror src src' where
  token t t' := t.Returned src t' ∧ List.Forall₂ fragment (docFragments t.value) (docFragments t'.value)
  fragment := fragment
  kind h := h.1.kind_value.1
  value h hdoc hstring := h.1.value_eq fun hbroken => hbroken.1.elim hdoc hstring
  fragments h := h.2
  indented := hindented
  text h := Source.textOf_returned htext (h.imp fun _ _ => And.left)

/-! ## Machines -/

namespace Source

/-- The text with a carriage return in front of each line feed. -/
def withReturns (src : Source) : Source := { src with text := String.ofList (Text.withReturns src.text.toList) }

/-- A string has a line that ends with a backslash. -/
def isContinued (src : Source) : Bool :=
  match src.tokenize with
  | .ok tokens => tokens.any fun t => t.Continued src
  | .error _ => false

/-- A doc comment or a string goes on in another line. -/
def isBroken (src : Source) : Bool :=
  match src.tokenize with
  | .ok tokens => tokens.any fun t => t.Broken src
  | .error _ => false

theorem isContinued_eq_false_iff {src : Source} {tokens : List Token} (h : src.tokenize = .ok tokens) :
    src.isContinued = false ↔ ∀ t ∈ tokens, ¬ t.Continued src := by
  simp [isContinued, h]

theorem isBroken_eq_false_iff {src : Source} {tokens : List Token} (h : src.tokenize = .ok tokens) :
    src.isBroken = false ↔ ∀ t ∈ tokens, ¬ t.Broken src := by
  simp [isBroken, h]

/-- **Line ends.** With a carriage return in front of every line feed, a text is read if and only if it is read
without them and none of its strings has a line that ends with a backslash. What is read is the same but for spans and
for carriage returns at the ends of lines of documentation and strings, and it is the same up to spans if no doc
comment or string goes on in another line. -/
theorem parse_withReturns (src : Source) :
    ((∃ d', src.withReturns.parse = .ok d') ↔ (∃ d, src.parse = .ok d) ∧ src.isContinued = false) ∧
      ∀ d d', src.parse = .ok d → src.withReturns.parse = .ok d' →
        d.Mirrors Text.Returned d' ∧ (src.isBroken = false → d'.withoutSpans = d.withoutSpans) := by
  have htext : src.withReturns.text.toList = Text.withReturns src.text.toList := String.toList_ofList
  obtain ⟨htokenizes, hcorrespond⟩ := tokenize_withReturns htext
  let m : Mirror src src.withReturns := .withReturns htext Text.Returned fun h => h.append_left " "
  have hm : ∀ {tokens tokens'}, src.tokenize = .ok tokens → src.withReturns.tokenize = .ok tokens' →
      List.Forall₂ m.token tokens tokens' := fun htokens htokens' =>
    (hcorrespond _ _ htokens htokens').imp fun _ _ h => ⟨h, h.fragments⟩
  refine ⟨⟨?_, ?_⟩, ?_⟩
  · rintro ⟨d', hread'⟩
    obtain ⟨tokens', htokens'⟩ := exists_tokens_of_parse hread'
    obtain ⟨tokens, htokens, hcontinued⟩ := htokenizes.mp ⟨tokens', htokens'⟩
    obtain ⟨d, hread, -⟩ := m.flip.parse htokens' htokens (hm htokens htokens').flip hread'
    exact ⟨⟨d, hread⟩, (isContinued_eq_false_iff htokens).mpr hcontinued⟩
  · rintro ⟨⟨d, hread⟩, hcontinued⟩
    obtain ⟨tokens, htokens⟩ := exists_tokens_of_parse hread
    obtain ⟨tokens', htokens'⟩ :=
      htokenizes.mpr ⟨tokens, htokens, (isContinued_eq_false_iff htokens).mp hcontinued⟩
    obtain ⟨d', hread', -⟩ := m.parse htokens htokens' (hm htokens htokens') hread
    exact ⟨d', hread'⟩
  · intro d d' hread hread'
    obtain ⟨tokens, htokens⟩ := exists_tokens_of_parse hread
    obtain ⟨tokens', htokens'⟩ := exists_tokens_of_parse hread'
    constructor
    · obtain ⟨d'', hread'', hd⟩ := m.parse htokens htokens' (hm htokens htokens') hread
      rw [hread'] at hread''
      cases hread''
      exact hd
    · intro hbroken
      let m' : Mirror src src.withReturns := .withReturns htext Eq (congrArg _)
      have hm' : List.Forall₂ m'.token tokens tokens' := by
        have hunbroken := (List.forall₂_and_left _ _).mpr
          ⟨(isBroken_eq_false_iff htokens).mp hbroken, hcorrespond _ _ htokens htokens'⟩
        refine hunbroken.imp fun t t' ⟨hnot, h⟩ => ⟨h, ?_⟩
        rw [h.value_eq hnot]
        exact List.forall₂_refl _
      obtain ⟨d'', hread'', hd⟩ := m'.parse htokens htokens' hm' hread
      rw [hread'] at hread''
      cases hread''
      exact Document.Mirrors.withoutSpans hd

theorem parse_of_isOk {src : Source} (h : src.parse.isOk = true) : ∃ d, src.parse = .ok d := by
  cases hread : src.parse with
  | ok d => exact ⟨d, rfl⟩
  | error e =>
    rw [hread] at h
    cases h

/-- A machine with comments and a type that go over line ends. -/
def lamp : Source := { text := "/// A lamp\nlamp: [u8;\n  4] /* off,\nat first */ -> on; // and no more\n" }

theorem lamp_withReturns : ∃ d d', lamp.parse = .ok d ∧ lamp.withReturns.parse = .ok d' ∧
    d'.withoutSpans = d.withoutSpans := by
  obtain ⟨hreads, hsame⟩ := parse_withReturns lamp
  obtain ⟨d, hread⟩ : ∃ d, lamp.parse = .ok d := parse_of_isOk (by decide +kernel)
  obtain ⟨d', hread'⟩ := hreads.mpr ⟨⟨d, hread⟩, by decide +kernel⟩
  exact ⟨d, d', hread, hread', (hsame d d' hread hread').2 (by decide +kernel)⟩

/-- A doc comment of two lines. -/
def blockDoc : Source := { text := "/** a\n b */\nA -> B;" }

/-- A string of two lines, the first of which ends with a backslash. -/
def foldedDoc : Source := { text := "A -\"a\\\n b\"-> B;" }

/-- With carriage returns the comment says something else, and the string is no string. -/
theorem blockDoc_foldedDoc_withReturns :
    ('\r' ∉ blockDoc.text.toList ∧ ∃ d d', blockDoc.parse = .ok d ∧ blockDoc.withReturns.parse = .ok d' ∧
      d'.withoutSpans ≠ d.withoutSpans) ∧
    '\r' ∉ foldedDoc.text.toList ∧ (∃ d, foldedDoc.parse = .ok d) ∧
      ∀ d', foldedDoc.withReturns.parse ≠ .ok d' := by
  refine ⟨⟨by decide, ?_⟩, by decide, parse_of_isOk (by decide +kernel), ?_⟩
  · obtain ⟨d, hread⟩ : ∃ d, blockDoc.parse = .ok d := parse_of_isOk (by decide +kernel)
    obtain ⟨d', hread'⟩ : ∃ d, blockDoc.withReturns.parse = .ok d := parse_of_isOk (by decide +kernel)
    refine ⟨d, d', hread, hread', fun hsame => ?_⟩
    have hdiffer : blockDoc.withReturns.parse.toOption.map Document.withoutSpans ≠
        blockDoc.parse.toOption.map Document.withoutSpans := by decide +kernel
    rw [hread, hread'] at hdiffer
    exact hdiffer (congrArg some hsame)
  · intro d' hread'
    have hrejects : foldedDoc.withReturns.parse.isOk = false := by decide +kernel
    rw [hread'] at hrejects
    cases hrejects

end Source

end Typestate
