import Typestate.Proofs.Grammar.Reading

/-!
What readers do from a stream on. `From` says of a reader what its result and the stream it leaves have to
do with the stream it was given, and of what it may complain. There is a rule for each way of making
readers from others. A repetition has to take a token in each round that is followed by another
(`from_rounds`).
-/

namespace Typestate

namespace TokenStream

/-- The last token is the mark of the end. -/
def Ended (s : TokenStream) : Prop := s.last.kind = .endOfInput

/-- The second stream is what is left of the first. -/
structure Leads (s s' : TokenStream) : Prop where
  last : s'.last = s.last
  ahead : s'.ahead <:+ s.ahead

/-- What is left is less than there was. -/
structure Moves (s s' : TokenStream) : Prop extends Leads s s' where
  fewer : s'.ahead.length < s.ahead.length

variable {s s₁ s₂ : TokenStream}

theorem Leads.refl (s : TokenStream) : s.Leads s := ⟨rfl, List.suffix_rfl⟩

theorem Leads.trans (h₁ : s.Leads s₁) (h₂ : s₁.Leads s₂) : s.Leads s₂ :=
  ⟨h₂.last.trans h₁.last, h₂.ahead.trans h₁.ahead⟩

theorem Leads.ended (h : s.Leads s₁) (hs : s.Ended) : s₁.Ended := by
  unfold Ended
  rw [h.last]
  exact hs

theorem Moves.trans_leads (h₁ : s.Moves s₁) (h₂ : s₁.Leads s₂) : s.Moves s₂ :=
  ⟨h₁.toLeads.trans h₂, Nat.lt_of_le_of_lt h₂.ahead.length_le h₁.fewer⟩

theorem Leads.trans_moves (h₁ : s.Leads s₁) (h₂ : s₁.Moves s₂) : s.Moves s₂ :=
  ⟨h₁.trans h₂.toLeads, Nat.lt_of_lt_of_le h₂.fewer h₁.ahead.length_le⟩

theorem Moves.trans (h₁ : s.Moves s₁) (h₂ : s₁.Moves s₂) : s.Moves s₂ := h₁.trans_leads h₂.toLeads

/-- The first token ahead is this one, and the second stream is what comes after it. -/
structure Takes (t : Token) (s s' : TokenStream) : Prop where
  last : s'.last = s.last
  ahead : s.ahead = t :: s'.ahead

theorem Takes.moves {t : Token} (h : Takes t s s₁) : s.Moves s₁ where
  last := h.last
  ahead := h.ahead ▸ List.suffix_cons t s₁.ahead
  fewer := by rw [h.ahead, List.length_cons]; omega

theorem Takes.peek {t : Token} (h : Takes t s s₁) (n : Nat) : s₁.peek n = s.peek (n + 1) := by
  unfold TokenStream.peek
  rw [h.ahead, h.last, List.getElem?_cons_succ]

theorem Takes.current {t : Token} (h : Takes t s s₁) : s₁.current = s.peek 1 := h.peek 0

/-- A stream whose next token is not the mark of the end has that token ahead. -/
theorem takes_current (hs : s.Ended) (h : s.current.kind ≠ .endOfInput) :
    Takes s.current s { s with ahead := s.ahead.tail } := by
  cases s with
  | mk ahead last =>
    cases ahead with
    | nil => exact absurd hs h
    | cons t rest => exact ⟨rfl, rfl⟩

end TokenStream

namespace Parser

variable {α β : Type} {may : ParseCause → Prop} {src : Source} {s : TokenStream}

/-- From the stream on, the reader succeeds with a result and a stream in `post`, or it complains of
something that it may complain of. -/
def From (may : ParseCause → Prop) (src : Source) (s : TokenStream) (p : Parser α)
    (post : α → TokenStream → Prop) : Prop :=
  match p src s with
  | .ok a s' => post a s'
  | .error e _ => may e.cause

/-! ## Rules -/

variable {p : Parser α} {next : α → Parser β} {post post' : α → TokenStream → Prop}

theorem from_pure {a : α} (h : post a s) : From may src s (pure a) post := h

theorem From.weaken (h : From may src s p post) (hp : ∀ a s', post a s' → post' a s') :
    From may src s p post' := by
  unfold From at h ⊢
  cases hrun : p src s with
  | ok a s' =>
    rw [hrun] at h
    exact hp a s' h
  | error e s' =>
    rw [hrun] at h
    exact h

/-- **Sequencing.** What one parser does from a place in the tokens, and the next from where that stops, both do one
after the other. -/
theorem From.bind {post' : β → TokenStream → Prop} (h : From may src s p post)
    (hn : ∀ a s', post a s' → From may src s' (next a) post') : From may src s (p >>= next) post' := by
  have hbind : (p >>= next) src s = EStateM.bind (p src) (fun a => next a src) s := rfl
  unfold From at h ⊢
  rw [hbind, EStateM.bind]
  cases hrun : p src s with
  | ok a s' =>
    rw [hrun] at h
    exact hn a s' h
  | error e s' =>
    rw [hrun] at h
    exact h

theorem from_map {f : α → β} {post' : β → TokenStream → Prop} (h : From may src s p post)
    (hf : ∀ a s', post a s' → post' (f a) s') : From may src s (f <$> p) post' := by
  rw [← bind_pure_comp]
  exact h.bind fun a s' ha => from_pure (hf a s' ha)

theorem from_ite {c : Prop} [Decidable c] {q : Parser α} (hp : c → From may src s p post)
    (hq : ¬ c → From may src s q post) : From may src s (if c then p else q) post := by
  split
  · next h => exact hp h
  · next h => exact hq h

/-- A repetition is its first round, and after a round that took a token the repetition again. -/
theorem from_rounds_step {round : β → Parser (Round β)} {acc : β} {post : β → TokenStream → Prop}
    (h : From may src s (round acc) fun r s' =>
      match r with
      | .again acc' => s'.ahead.length < s.ahead.length ∧ From may src s' (rounds round acc') post
      | .done acc' => post acc' s') : From may src s (rounds round acc) post := by
  unfold From at h ⊢
  unfold rounds roundsFrom
  cases hrun : round acc src s with
  | error e s' =>
    rw [hrun] at h
    exact h
  | ok r s' =>
    rw [hrun] at h
    cases r with
    | done acc' => exact h
    | again acc' =>
      dsimp only
      rw [if_pos h.1]
      exact h.2

/-- **Repetition.** The rounds of a loop that each take a token come to an end. -/
theorem from_rounds (inv : β → TokenStream → Prop) {round : β → Parser (Round β)}
    {post : β → TokenStream → Prop}
    (hround : ∀ acc s, inv acc s → From may src s (round acc) fun r s' =>
      match r with
      | .again acc' => inv acc' s' ∧ s'.ahead.length < s.ahead.length
      | .done acc' => post acc' s')
    {acc : β} (h : inv acc s) : From may src s (rounds round acc) post := by
  induction hn : s.ahead.length using Nat.strongRecOn generalizing acc s with
  | ind n ih =>
    refine from_rounds_step ((hround acc s h).weaken fun r s' hr => ?_)
    cases r with
    | done acc' => exact hr
    | again acc' => exact ⟨hr.2, ih s'.ahead.length (hn ▸ hr.2) hr.1 rfl⟩

/-! ## Tokens -/

theorem from_fail {t : Token} {cause : ParseCause} (h : may cause) :
    From may src s (fail t cause) post := h

/-- Nothing is read after a complaint. -/
theorem from_fail_bind {t : Token} {cause : ParseCause} {post : β → TokenStream → Prop}
    (h : may cause) : From may src s (fail t cause >>= next) post := h

theorem from_get {next : TokenStream → Parser β} {post : β → TokenStream → Prop}
    (h : From may src s (next s) post) : From may src s (get >>= next) post := h

theorem from_set {s' : TokenStream} {next : PUnit → Parser β} {post : β → TokenStream → Prop}
    (h : From may src s' (next ⟨⟩) post) : From may src s (set s' >>= next) post := h

theorem from_read {next : Source → Parser β} {post : β → TokenStream → Prop}
    (h : From may src s (next src) post) : From may src s (read >>= next) post := h

theorem from_current {next : Token → Parser β} {post : β → TokenStream → Prop}
    (h : From may src s (next s.current) post) : From may src s (current >>= next) post := h

theorem from_peek {n : Nat} {next : Token → Parser β} {post : β → TokenStream → Prop}
    (h : From may src s (next (s.peek n)) post) : From may src s (peek n >>= next) post := h

/-- A reader that looks at the kind of the next token goes on in one of two ways. -/
theorem from_isAt {k : TokenKind} {next : Bool → Parser β} {post : β → TokenStream → Prop}
    (hyes : s.current.kind = k → From may src s (next true) post)
    (hno : s.current.kind ≠ k → From may src s (next false) post) :
    From may src s (isAt k >>= next) post := by
  change From may src s (next (s.current.kind == k)) post
  by_cases h : s.current.kind = k
  · rw [beq_iff_eq.mpr h]
    exact hyes h
  · rw [beq_false_of_ne h]
    exact hno h

theorem from_advance {next : Token → Parser β} {post : β → TokenStream → Prop} (hs : s.Ended)
    (h : s.current.kind ≠ .endOfInput)
    (hn : ∀ s', TokenStream.Takes s.current s s' → From may src s' (next s.current) post) :
    From may src s (advance >>= next) post := by
  have hadvance : From may src s advance fun t s' => t = s.current ∧ TokenStream.Takes s.current s s' := by
    unfold From
    rw [advance_apply]
    exact ⟨rfl, TokenStream.takes_current hs h⟩
  refine hadvance.bind ?_
  rintro t s' ⟨rfl, htakes⟩
  exact hn s' htakes

/-- Taking a token of some kind that is not the mark of the end. -/
theorem from_expect {k : TokenKind} {next : Token → Parser β} {post : β → TokenStream → Prop}
    (hs : s.Ended) (hk : k ≠ .endOfInput) (hmay : ∀ t, may (.expected (.kind k) t))
    (hn : ∀ t s', TokenStream.Takes t s s' → t.kind = k → From may src s' (next t) post) :
    From may src s (expect k >>= next) post := by
  have hexpect : From may src s (expect k) fun t s' => TokenStream.Takes t s s' ∧ t.kind = k := by
    unfold expect
    refine from_current (from_ite (fun hkind => ?_) fun _ => from_fail (hmay _))
    have hne : s.current.kind ≠ .endOfInput := by rwa [hkind]
    unfold From
    rw [advance_apply]
    exact ⟨TokenStream.takes_current hs hne, hkind⟩
  exact hexpect.bind fun t s' h => hn t s' h.1 h.2

end Parser

end Typestate
