import Typestate.Proofs.Grammar.Header

/-!
Looking for a header. Whether a machine has one is seen from the tokens behind documentation and attributes,
which are passed by their square brackets alone, while what stands there is read by three readers, two of them
with a grammar of their own. All of them take whole attributes, so that reading goes on where looking went on,
and neither a header is taken for a statement nor a statement for a header
(`Parser.startsHeader_derived`, `Parser.document_eq_ok_iff`).
-/

namespace Typestate

/-! ## The grammar -/

/-- A machine with a header: what stands in front of it, the header, and statements in braces. -/
inductive HeadedDerived (src : Source) : List Token → Header → List Statement → Prop
  | mk {outer head body : List Token} {opening closing : Token} {h : Header} {sts : List Statement}
    (houter : OuterTokens outer) (hhead : HeaderDerived src head h) (hopening : opening.kind = .leftBrace)
    (hbody : Many (StatementDerived src) body sts) (hclosing : closing.kind = .rightBrace) :
    HeadedDerived src (outer ++ (head ++ opening :: (body ++ [closing]))) h sts

/-- What a header starts with, up to the token that shows that it is one. -/
inductive HeaderFront : List Token → Prop
  | visible {t : Token} {rest : List Token} (ht : t.kind = .pub) : HeaderFront (t :: rest)
  | word {t u : Token} {rest : List Token} (ht : t.kind = .identifier) (hword : t.value = enumWord)
    (hu : u.kind = .identifier) : HeaderFront (t :: u :: rest)
  | name {t u : Token} {rest : List Token} (ht : t.kind = .identifier)
    (hu : u.kind ∈ [.leftBrace, .lessThan, .whereWord]) : HeaderFront (t :: u :: rest)

/-- What shows a header is not passed. -/
theorem HeaderFront.afterPreamble_eq {ts : List Token} (h : HeaderFront ts) : afterPreamble none ts = ts := by
  cases h with
  | visible ht => exact afterPreamble_cons (by rw [ht]; nofun) (by rw [ht]; nofun) _
  | word ht => exact afterPreamble_cons (by rw [ht]; nofun) (by rw [ht]; nofun) _
  | name ht => exact afterPreamble_cons (by rw [ht]; nofun) (by rw [ht]; nofun) _

/-- At the end of the input nothing shows a header. -/
theorem HeaderFront.current_ne {s : TokenStream} (h : HeaderFront s.ahead) : s.current.kind ≠ .endOfInput := by
  obtain ⟨ahead, last⟩ := s
  dsimp only at h
  intro hend
  cases h with
  | visible ht => exact absurd (ht.symm.trans hend) nofun
  | word ht => exact absurd (ht.symm.trans hend) nofun
  | name ht => exact absurd (ht.symm.trans hend) nofun

namespace Parser

open TokenStream

variable {src : Source} {s : TokenStream}

/-! ## Reading in front of a header -/

/-- **One place.** Reading in front of a header ends where looking for the header goes on. -/
theorem preamble_stops (hs : s.Ended) :
    Proceeds src s preamble fun _ s' => (∃ outer, OuterTokens outer ∧ Passes outer s s') ∧
      s' = { s with ahead := afterPreamble none s.ahead } := by
  refine (preamble_captured hs).weaken fun p s' ⟨⟨outer, houter, h, _⟩, hdoc, hpound⟩ => ?_
  refine ⟨⟨outer, houter, h⟩, ?_⟩
  rw [h.ahead, houter.afterPreamble_append, afterPreamble_of_current hdoc hpound, ← h.last]

/-! ## What is seen -/

/-- A header is seen exactly if the tokens that are not passed start with what shows one. -/
theorem startsHeader_iff (hs : s.Ended) : s.startsHeader = true ↔ HeaderFront (afterPreamble none s.ahead) := by
  have hend : s.last.kind = .endOfInput := hs
  rcases hafter : afterPreamble none s.ahead with _ | ⟨t, rest⟩
  · have hnone : s.startsHeader = false := by
      have hcurrent : (TokenStream.mk [] s.last).current = s.last := rfl
      simp only [startsHeader, hafter, hcurrent, hend]
    rw [hnone]
    exact ⟨fun h => absurd h Bool.false_ne_true, fun h => by cases h⟩
  have hcurrent : (TokenStream.mk (t :: rest) s.last).current = t := rfl
  simp only [startsHeader, hafter, hcurrent]
  split
  · next ht => exact ⟨fun _ => .visible ht, fun _ => rfl⟩
  · next ht =>
    cases rest with
    | nil =>
      have hnext : (TokenStream.mk [t] s.last).peek 1 = s.last := rfl
      rw [hnext, hend]
      refine ⟨fun h => absurd h (by simp), ?_⟩
      rintro ⟨hpub⟩
      rw [ht] at hpub
      cases hpub
    | cons u more =>
      have hnext : (TokenStream.mk (t :: u :: more) s.last).peek 1 = u := rfl
      rw [hnext]
      simp only [Bool.or_eq_true, Bool.and_eq_true, beq_iff_eq]
      constructor
      · rintro (((⟨hword, hu⟩ | hu) | hu) | hu)
        · exact .word ht hword hu
        · exact .name ht (by rw [hu]; decide)
        · exact .name ht (by rw [hu]; decide)
        · exact .name ht (by rw [hu]; decide)
      · rintro (hpub | ⟨-, hword, hu⟩ | ⟨-, hu⟩)
        · rw [ht] at hpub
          cases hpub
        · exact .inl (.inl (.inl ⟨hword, hu⟩))
        · simp only [List.mem_cons, List.not_mem_nil, or_false] at hu
          rcases hu with hu | hu | hu
          · exact .inl (.inl (.inr hu))
          · exact .inl (.inr hu)
          · exact .inr hu
  · next hpub hname =>
    refine ⟨fun h => absurd h Bool.false_ne_true, ?_⟩
    rintro (ht | ⟨ht, -, -⟩ | ⟨ht, -⟩)
    · exact absurd ht hpub
    · exact absurd ht hname
    · exact absurd ht hname

/-- Every header starts with what shows one. -/
theorem headerFront_of_headerDerived {ts : List Token} {h : Header} {opening : Token} {rest : List Token}
    (hheader : HeaderDerived src ts h) (hopening : opening.kind = .leftBrace) :
    HeaderFront (ts ++ opening :: rest) := by
  obtain @⟨front, word, params, clause, name, vis, generics, predicates, hvis, hword, hname, hgenerics,
    hclause⟩ := hheader
  have hbehind : ∃ u more, params ++ (clause ++ opening :: rest) = u :: more ∧
      u.kind ∈ [.leftBrace, .lessThan, .whereWord] := by
    cases hgenerics with
    | empty hless => exact ⟨_, _, rfl, by rw [hless]; decide⟩
    | some hless => exact ⟨_, _, rfl, by rw [hless]; decide⟩
    | none =>
      cases hclause with
      | none => exact ⟨_, _, rfl, by rw [hopening]; decide⟩
      | empty hwhere => exact ⟨_, _, rfl, by rw [hwhere]; decide⟩
      | some hwhere => exact ⟨_, _, rfl, by rw [hwhere]; decide⟩
  obtain ⟨u, more, hmore, hu⟩ := hbehind
  have hshape : front ++ (word ++ name :: (params ++ clause)) ++ opening :: rest =
      front ++ (word ++ name :: u :: more) := by
    rw [← hmore]
    simp
  rw [hshape]
  cases hvis with
  | everywhere hpub => exact .visible hpub
  | only hpub => exact .visible hpub
  | within hpub => exact .visible hpub
  | none =>
    cases hword with
    | word hkind hvalue => exact .word hkind hvalue hname
    | none => exact .name hname hu

/-! ## Statements -/

variable {docs : List String} {ts rest : List Token}

/-- Behind its name a reference goes on with a colon, or something else comes. -/
theorem exists_of_refDerived {r : NodeRef} (h : RefDerived src docs ts r)
    (hrest : ∃ u more, rest = u :: more ∧ u.kind ∈ afterNameKinds) :
    ∃ t u more, ts ++ rest = t :: u :: more ∧ t.kind = .identifier ∧ u.kind ∈ afterNameKinds := by
  obtain ⟨u, more, rfl, hu⟩ := hrest
  cases h with
  | bare hkind => exact ⟨_, _, _, rfl, hkind, hu⟩
  | typed hkind _ hcolon => exact ⟨_, _, _, rfl, hkind, by rw [hcolon]; decide⟩

theorem exists_of_groupDerived {g : NodeGroup} (h : GroupDerived src docs ts g)
    (hrest : ∃ u more, rest = u :: more ∧ u.kind ∈ afterNameKinds) :
    ∃ t u more, ts ++ rest = t :: u :: more ∧ t.kind = .identifier ∧ u.kind ∈ afterNameKinds := by
  obtain ⟨hfirst, hmore⟩ := h
  rw [List.append_assoc]
  refine exists_of_refDerived hfirst ?_
  cases hmore with
  | nil => exact hrest
  | cons hfurther =>
    obtain ⟨hkind, -⟩ := hfurther
    exact ⟨_, _, rfl, by rw [hkind]; decide⟩

theorem exists_of_steps {steps : List (Arrow × NodeGroup)} (h : Many (StepDerived src) ts steps)
    (hne : steps ≠ []) : ∃ u more, ts ++ rest = u :: more ∧ u.kind ∈ afterNameKinds := by
  cases h with
  | nil => exact absurd rfl hne
  | cons hstep =>
    obtain ⟨harrow, -, -⟩ := hstep
    cases harrow with
    | plain hhead => exact ⟨_, _, rfl, by rw [hhead]; decide⟩
    | long hdash => exact ⟨_, _, rfl, by rw [hdash]; decide⟩
    | labelled hdash => exact ⟨_, _, rfl, by rw [hdash]; decide⟩

/-- Behind its documentation a statement starts with a name and what no header goes on with. -/
theorem exists_of_statementDerived {st : Statement} (h : StatementDerived src ts st) :
    ∃ outer t u more, ts = outer ++ t :: u :: more ∧ OuterTokens outer ∧ t.kind = .identifier ∧
      u.kind ∈ afterNameKinds := by
  cases h with
  | @node docs ref texts r semicolon hdocs href hend =>
    have hrest : ∃ u more, [semicolon] = u :: more ∧ u.kind ∈ afterNameKinds :=
      ⟨semicolon, [], rfl, by rw [hend]; decide⟩
    obtain ⟨t, u, more, heq, ht, hu⟩ := exists_of_refDerived href hrest
    exact ⟨docs, t, u, more, by rw [heq], .of_docs hdocs, ht, hu⟩
  | @chain docs group steps texts first rest semicolon hdocs hfirst hrest hne hend =>
    obtain ⟨t, u, more, heq, ht, hu⟩ := exists_of_groupDerived hfirst (exists_of_steps hrest hne)
    exact ⟨docs, t, u, more, by rw [heq], .of_docs hdocs, ht, hu⟩

theorem not_headerFront {t u : Token} {more : List Token} (ht : t.kind = .identifier)
    (hu : u.kind ∈ afterNameKinds) : ¬ HeaderFront (t :: u :: more) := by
  rintro (hpub | ⟨-, -, hname⟩ | ⟨-, hnext⟩)
  · rw [ht] at hpub
    cases hpub
  · rw [hname] at hu
    exact absurd hu (by decide)
  · simp only [List.mem_cons, List.not_mem_nil, or_false] at hnext
    rcases hnext with hnext | hnext | hnext <;> rw [hnext] at hu <;> exact absurd hu (by decide)

/-! ## Documents -/

/-- A header is seen in front of every machine that has one. -/
theorem startsHeader_of_headed {h : Header} {sts : List Statement} {s' : TokenStream} (hs : s.Ended)
    (hheaded : HeadedDerived src ts h sts) (hpasses : Passes ts s s') : s.startsHeader = true := by
  obtain @⟨outer, head, body, opening, closing, h, sts, houter, hhead, hopening, -, -⟩ := hheaded
  have hfront : HeaderFront (head ++ opening :: (body ++ [closing] ++ s'.ahead)) :=
    headerFront_of_headerDerived hhead hopening
  rw [startsHeader_iff hs, hpasses.ahead, List.append_assoc, houter.afterPreamble_append, List.append_assoc,
    List.cons_append, hfront.afterPreamble_eq]
  exact hfront

/-- No header is seen in front of statements, nor at the end. -/
theorem startsHeader_of_bare {sts : List Statement} {s' : TokenStream} (hs : s.Ended)
    (hbare : Many (StatementDerived src) ts sts) (hpasses : Passes ts s s')
    (hend : ts = [] → s'.current.kind = .endOfInput) : s.startsHeader = false := by
  rw [Bool.eq_false_iff, ne_eq, startsHeader_iff hs]
  cases hbare with
  | nil =>
    have hsame : s' = s := by
      rw [← show (⟨s.ahead, s.last⟩ : TokenStream) = s from rfl, hpasses.ahead, List.nil_append, ← hpasses.last]
    have hcurrent : s.current.kind = .endOfInput := hsame ▸ hend rfl
    rw [afterPreamble_of_current (by rw [hcurrent]; nofun) (by rw [hcurrent]; nofun)]
    exact fun hfront => hfront.current_ne hcurrent
  | cons hst _ =>
    obtain ⟨outer, t, u, more, rfl, houter, ht, hu⟩ := exists_of_statementDerived hst
    rw [hpasses.ahead, List.append_assoc, List.append_assoc, houter.afterPreamble_append, List.cons_append,
      afterPreamble_cons (by rw [ht]; nofun) (by rw [ht]; nofun)]
    exact not_headerFront ht hu

theorem headedDocument_derived (hs : s.Ended) :
    Proceeds src s headedDocument fun d _ => ∃ ts h s', HeadedDerived src ts h d.statements ∧
      Passes ts s s' ∧ s'.current.kind = .endOfInput := by
  unfold headedDocument
  refine (preamble_captured hs).bind fun p s₁ ⟨⟨outer, houter, h₁, _⟩, _⟩ => ?_
  have hs₁ : s₁.Ended := h₁.ended hs
  refine (header_derived hs₁).bind fun h s₂ ⟨head, hhead, h₂⟩ => ?_
  refine proceeds_expect (h₂.ended hs₁) nofun fun opening s₃ h₃ hs₃ hopening => ?_
  refine (statements_derived _ hs₃).bind fun sts s₄ ⟨body, hbody, h₄, _⟩ => ?_
  refine proceeds_expect (h₄.ended hs₃) nofun fun closing s₅ h₅ _ hclosing => ?_
  refine proceeds_expect_endOfInput.bind fun _ _ hend => from_pure ?_
  exact ⟨_, h, s₅, .mk houter hhead hopening hbody hclosing,
    h₁.trans (h₂.trans (h₃.trans_passes (h₄.trans h₅.passes))), hend⟩

theorem bareDocument_derived (hs : s.Ended) :
    Proceeds src s bareDocument fun d s' => ∃ ts, Many (StatementDerived src) ts d.statements ∧
      Passes ts s s' ∧ s'.current.kind = .endOfInput := by
  unfold bareDocument
  exact from_current ((statements_derived _ hs).bind fun _ _ hsts => from_pure hsts)

/-- **Looking and reading.** From every place in a list of tokens that ends with the mark of the end, what
stands in front of a header is read up to exactly the token at which looking for the header stopped. A header
is seen in front of every machine that is derived with one, and in front of no statements that are derived
without. And what is read in either way is derived in that way. -/
theorem startsHeader_derived (hs : s.Ended) :
    (∀ p s', preamble src s = .ok p s' → (∃ outer, OuterTokens outer ∧ Passes outer s s') ∧
      s' = { s with ahead := afterPreamble none s.ahead }) ∧
    (∀ ts s' h sts, HeadedDerived src ts h sts → Passes ts s s' → s.startsHeader = true) ∧
    (∀ ts s' sts, Many (StatementDerived src) ts sts → ts ≠ [] → Passes ts s s' → s.startsHeader = false) ∧
    (∀ d s', headedDocument src s = .ok d s' → ∃ ts h s₁, HeadedDerived src ts h d.statements ∧
      Passes ts s s₁ ∧ s₁.current.kind = .endOfInput) ∧
    ∀ d s', bareDocument src s = .ok d s' → ∃ ts, Many (StatementDerived src) ts d.statements ∧
      Passes ts s s' ∧ s'.current.kind = .endOfInput := by
  refine ⟨fun p s' hrun => (preamble_stops hs).of_ok hrun, ?_, ?_,
    fun d s' hrun => (headedDocument_derived hs).of_ok hrun,
    fun d s' hrun => (bareDocument_derived hs).of_ok hrun⟩
  · intro ts s' h sts hheaded hpasses
    exact startsHeader_of_headed hs hheaded hpasses
  · intro ts s' sts hbare hne hpasses
    exact startsHeader_of_bare hs hbare hpasses fun hnil => absurd hnil hne

/-- Documentation and attributes of all three forms, with brackets in a string and in each other. -/
def doorway : Source :=
  { text := "/// In\n#[doc = \"]\"] #[a[b]] #[fsmentry(unsafe = true)] pub G \x7b A; \x7d" }

/-- Statements with documentation of both forms, in which brackets open. -/
def hallway : Source := { text := "/// [\n#[doc = \"#[\"] A -> B;" }

theorem exists_run {α : Type} (p : Parser α) (src : Source) (good : α → TokenStream → Bool)
    (h : (match src.tokenize with
      | .ok tokens =>
        match p src (.ofTokens tokens) with
        | .ok a s' => good a s'
        | .error _ _ => false
      | .error _ => false) = true) :
    ∃ tokens a s', src.tokenize = .ok tokens ∧ p src (.ofTokens tokens) = .ok a s' ∧ good a s' = true := by
  cases htokens : src.tokenize with
  | error e => simp [htokens] at h
  | ok tokens =>
    cases hrun : p src (.ofTokens tokens) with
    | error e s' => simp [htokens, hrun] at h
    | ok a s' => exact ⟨tokens, a, s', rfl, hrun, by simpa [htokens, hrun] using h⟩

theorem doorway_hallway_startsHeader :
    (∃ tokens p s', doorway.tokenize = .ok tokens ∧ (TokenStream.ofTokens tokens).Ended ∧
      preamble doorway (.ofTokens tokens) = .ok p s' ∧ p.attrs = ["#[a[b]]"] ∧
      s'.current.kind = .pub ∧ s'.ahead = afterPreamble none (TokenStream.ofTokens tokens).ahead ∧
      (TokenStream.ofTokens tokens).startsHeader = true) ∧
    ∃ tokens d s', hallway.tokenize = .ok tokens ∧ (TokenStream.ofTokens tokens).Ended ∧
      bareDocument hallway (.ofTokens tokens) = .ok d s' ∧ d.statements.length = 1 ∧
      (TokenStream.ofTokens tokens).startsHeader = false := by
  constructor
  · obtain ⟨tokens, p, s', htokens, hpreamble, hgood⟩ := exists_run preamble doorway
      (fun p s' => p.attrs == ["#[a[b]]"] && s'.current.kind == .pub) (by decide +kernel)
    obtain ⟨tokens', d, s₁, htokens', hdocument, -⟩ := exists_run headedDocument doorway
      (fun _ _ => true) (by decide +kernel)
    obtain rfl : tokens = tokens' := Except.ok.inj (htokens.symm.trans htokens')
    have hs : (TokenStream.ofTokens tokens).Ended := Source.ended_ofTokens htokens
    simp only [Bool.and_eq_true, beq_iff_eq] at hgood
    obtain ⟨hstops, hheaded, -, hread, -⟩ := @startsHeader_derived doorway _ hs
    obtain ⟨ts, h, s₂, hts, hpasses, -⟩ := hread d s₁ hdocument
    refine ⟨tokens, p, s', htokens, hs, hpreamble, hgood.1, hgood.2, ?_, hheaded ts s₂ h _ hts hpasses⟩
    rw [(hstops p s' hpreamble).2]
  · obtain ⟨tokens, d, s', htokens, hdocument, hgood⟩ := exists_run bareDocument hallway
      (fun d _ => d.statements.length == 1) (by decide +kernel)
    have hs : (TokenStream.ofTokens tokens).Ended := Source.ended_ofTokens htokens
    obtain ⟨-, -, hbare, -, hread⟩ := @startsHeader_derived hallway _ hs
    obtain ⟨ts, hts, hpasses, -⟩ := hread d s' hdocument
    have hone : d.statements.length = 1 := beq_iff_eq.mp hgood
    have hne : ts ≠ [] := by
      cases hsts : d.statements with
      | nil => simp [hsts] at hone
      | cons st sts =>
        rw [hsts] at hts
        obtain _ | ⟨hst, -⟩ := hts
        simp [ne_nil_of_statementDerived hst]
    exact ⟨tokens, d, s', htokens, hs, hdocument, hone, hbare ts _ _ hts hne hpasses⟩

/-- A machine is read with a header or without, whichever way it can be read: looking for the header stands in
the way of neither. -/
theorem document_eq_ok_iff (hs : s.Ended) {d : Document} {s' : TokenStream} :
    document src s = .ok d s' ↔ headedDocument src s = .ok d s' ∨ bareDocument src s = .ok d s' := by
  have hdocument : document src s = if s.startsHeader then headedDocument src s else bareDocument src s := by
    change (if s.startsHeader then headedDocument else bareDocument) src s = _
    split <;> rfl
  rw [hdocument]
  constructor
  · intro hrun
    split at hrun
    · exact .inl hrun
    · exact .inr hrun
  · rintro (hrun | hrun)
    · obtain ⟨ts, h, s₁, hheaded, hpasses, -⟩ := (headedDocument_derived hs).of_ok hrun
      rwa [startsHeader_of_headed hs hheaded hpasses, if_pos rfl]
    · obtain ⟨ts, hbare, hpasses, hend⟩ := (bareDocument_derived hs).of_ok hrun
      rwa [startsHeader_of_bare hs hbare hpasses fun _ => hend, if_neg Bool.false_ne_true]

end Parser

end Typestate
