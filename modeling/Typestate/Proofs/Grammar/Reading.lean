import Typestate.Proofs.Grammar.Searching
import Typestate.Proofs.Run

/-!
What readers do to good tokens. A reader that succeeds leaves a part of the tokens that it was given, so
it leaves good tokens if it was given good ones, and its result can be told from them; a reader that
complains does so about one of them. `Ensures` says all this of a reader, with a rule for each way of making
readers from others.
-/

namespace Typestate

/-- All tokens ahead, and the mark of the end, are good. -/
def TokenStream.All (good : Token → Prop) (s : TokenStream) : Prop :=
  (∀ t ∈ s.ahead, good t) ∧ good s.last

namespace Parser

variable {α β : Type} {good : Token → Prop}

/-- The complaint is about a good token, or it is that reading stands still. -/
def Blames (good : Token → Prop) (src : Source) (e : ParseError) : Prop :=
  e.cause = .stalled ∨ ∃ t, good t ∧ e.context = some (src.context t.span)

/-- On good tokens, what the reader leaves is good, and its result is in `post`; or it complains about one
of them. -/
def Ensures (good : Token → Prop) (p : Parser α) (post : α → Prop) : Prop :=
  ∀ src s, s.All good → match p src s with
    | .ok a s' => s'.All good ∧ post a
    | .error e _ => Blames good src e

/-- The reader leaves good tokens good. -/
def Keeps (good : Token → Prop) (p : Parser α) : Prop := Ensures good p fun _ => True

/-! ## Rules -/

variable {p : Parser α} {next : α → Parser β} {post post' : α → Prop}

theorem Ensures.of_ok (h : Ensures good p post) {src : Source} {s s' : TokenStream} {a : α}
    (hs : s.All good) (hrun : p src s = .ok a s') : s'.All good ∧ post a := by
  have hend := h src s hs
  rwa [hrun] at hend

theorem Ensures.of_error (h : Ensures good p post) {src : Source} {s s' : TokenStream} {e : ParseError}
    (hs : s.All good) (hrun : p src s = .error e s') : Blames good src e := by
  have hend := h src s hs
  rwa [hrun] at hend

theorem ensures_pure {a : α} (h : post a) : Ensures good (pure a) post := fun _ _ hs => ⟨hs, h⟩

theorem keeps_pure (a : α) : Keeps good (pure a) := ensures_pure trivial

theorem ensures_ite {c : Prop} [Decidable c] {p q : Parser α} (hp : Ensures good p post)
    (hq : Ensures good q post) : Ensures good (if c then p else q) post := by
  split
  · exact hp
  · exact hq

theorem Ensures.weaken (h : Ensures good p post) (hp : ∀ a, post a → post' a) :
    Ensures good p post' := by
  intro src s hs
  have hend := h src s hs
  split at hend
  · exact ⟨hend.1, hp _ hend.2⟩
  · exact hend

theorem Ensures.keeps (h : Ensures good p post) : Keeps good p := h.weaken fun _ _ => trivial

/-- **Sequencing.** What a parser ensures about its result, the next one may use. -/
theorem Ensures.bind {post' : β → Prop} (h : Ensures good p post)
    (hn : ∀ a, post a → Ensures good (next a) post') : Ensures good (p >>= next) post' := by
  intro src s hs
  have hbind : (p >>= next) src s = EStateM.bind (p src) (fun a => next a src) s := rfl
  rw [hbind, EStateM.bind]
  cases hrun : p src s with
  | ok a s' =>
    obtain ⟨hs', ha⟩ := h.of_ok hs hrun
    exact hn a ha src s' hs'
  | error e s' => exact h.of_error hs hrun

theorem Keeps.bind {post' : β → Prop} (h : Keeps good p)
    (hn : ∀ a, Ensures good (next a) post') : Ensures good (p >>= next) post' :=
  Ensures.bind h fun a _ => hn a

theorem keeps_map {f : α → β} (h : Keeps good p) : Keeps good (f <$> p) := by
  rw [← bind_pure_comp]
  exact h.bind fun a => keeps_pure (f a)

/-- A repetition keeps what each of its rounds keeps. -/
theorem ensures_rounds {round : β → Parser (Round β)} {inv : β → Prop}
    (hround : ∀ acc, inv acc → Ensures good (round acc) fun r =>
      match r with
      | .again acc' => inv acc'
      | .done acc' => inv acc') {acc : β} (hacc : inv acc) :
    Ensures good (rounds round acc) inv := by
  intro src s hs
  unfold rounds
  induction hn : s.ahead.length using Nat.strongRecOn generalizing acc s with
  | ind n ih =>
    unfold roundsFrom
    cases hrun : round acc src s with
    | error e s₁ => exact (hround acc hacc).of_error hs hrun
    | ok r s₁ =>
      obtain ⟨hs₁, hr⟩ := (hround acc hacc).of_ok hs hrun
      cases r with
      | done acc' => exact ⟨hs₁, hr⟩
      | again acc' =>
        dsimp only
        by_cases hless : s₁.ahead.length < s.ahead.length
        · rw [if_pos hless]
          exact ih s₁.ahead.length (hn ▸ hless) hr s₁ hs₁ rfl
        · rw [if_neg hless]
          exact Or.inl rfl

theorem keeps_rounds {round : β → Parser (Round β)} (hround : ∀ acc, Keeps good (round acc))
    (acc : β) : Keeps good (rounds round acc) := by
  refine ensures_rounds (fun acc _ => (hround acc).weaken ?_) trivial
  rintro (_ | _) _ <;> trivial

/-! ## Tokens -/

theorem ensures_fail {t : Token} (ht : good t) (cause : ParseCause) : Ensures good (fail t cause) post :=
  fun _ _ _ => Or.inr ⟨t, ht, rfl⟩

/-- Nothing is read after a complaint. -/
theorem ensures_fail_bind {t : Token} (ht : good t) (cause : ParseCause) {next : α → Parser β}
    {post : β → Prop} : Ensures good (fail t cause >>= next) post := fun _ _ _ => Or.inr ⟨t, ht, rfl⟩

theorem all_peek {s : TokenStream} (h : s.All good) (n : Nat) : good (s.peek n) := by
  unfold TokenStream.peek
  cases hn : s.ahead[n]? with
  | none => exact h.2
  | some t => exact h.1 t (List.mem_of_getElem? hn)

theorem ensures_get : Ensures good (get : Parser TokenStream) fun s => s.All good :=
  fun _ _ hs => ⟨hs, hs⟩

theorem ensures_set {s : TokenStream} (h : s.All good) : Keeps good (set s : Parser PUnit) :=
  fun _ _ _ => ⟨h, trivial⟩

theorem keeps_read : Keeps good (read : Parser Source) := fun _ _ hs => ⟨hs, trivial⟩

theorem ensures_current : Ensures good current good :=
  ensures_get.bind fun _ hs => ensures_pure (all_peek hs 0)

theorem ensures_peek (n : Nat) : Ensures good (peek n) good :=
  ensures_get.bind fun _ hs => ensures_pure (all_peek hs n)

theorem advance_apply (src : Source) (s : TokenStream) :
    advance src s = .ok s.current { s with ahead := s.ahead.tail } := by
  rcases s with ⟨_ | ⟨t, rest⟩, last⟩ <;> rfl

theorem ensures_advance : Ensures good advance good := by
  intro src s hs
  rw [advance_apply]
  exact ⟨⟨fun t ht => hs.1 t (List.mem_of_mem_tail ht), hs.2⟩, all_peek hs 0⟩

theorem keeps_advance : Keeps good advance := ensures_advance.keeps

theorem keeps_isAt (k : TokenKind) : Keeps good (isAt k) :=
  ensures_current.bind fun _ _ => ensures_pure trivial

/-- A reader that takes the next token if it accepts it, and fails otherwise. -/
theorem ensures_accept {accept : Token → Prop} [DecidablePred accept] {cause : Token → ParseCause} :
    Ensures good (do
      let t ← current
      if accept t then advance else fail t (cause t)) fun t => good t ∧ accept t := by
  intro src s hs
  have hrun : (do
      let t ← current
      if accept t then advance else fail t (cause t) : Parser Token) src s =
    (if accept s.current then advance else fail s.current (cause s.current)) src s := rfl
  rw [hrun]
  by_cases haccept : accept s.current
  · have hend := ensures_advance src s hs
    rw [if_pos haccept, advance_apply]
    rw [advance_apply] at hend
    exact ⟨hend.1, hend.2, haccept⟩
  · rw [if_neg haccept]
    exact Or.inr ⟨s.current, all_peek hs 0, rfl⟩

theorem ensures_expect (k : TokenKind) : Ensures good (expect k) fun t => good t ∧ t.kind = k :=
  ensures_accept

theorem ensures_expectName : Ensures good expectName fun t => good t ∧ t.kind.isName = true :=
  ensures_accept

theorem keeps_expect (k : TokenKind) : Keeps good (expect k) := (ensures_expect k).keeps

/-! ## Texts -/

/-- The tokens that were taken, if a stop was found, and those that are left are together all there was. -/
def Splits (ts : List Token) : Balanced → Prop
  | .stopped taken rest => ts = taken ++ rest
  | .endOfInput => True
  | .unbalanced found rest => ∃ taken, ts = taken ++ found :: rest

theorem splits_upTo (stops : List TokenKind) (depth : Nat) (previous : Option TokenKind) (ts : List Token) :
    Splits ts (Balanced.upTo stops depth previous ts) := by
  have hprepend : ∀ (t : Token) {ts : List Token} {b : Balanced}, Splits ts b →
      Splits (t :: ts) (b.prepend t) := by
    intro t ts b h
    cases b with
    | stopped taken rest => exact congrArg (t :: ·) h
    | endOfInput => trivial
    | unbalanced found rest =>
      obtain ⟨taken, h⟩ := h
      exact ⟨t :: taken, congrArg (t :: ·) h⟩
  induction ts generalizing depth previous with
  | nil => trivial
  | cons t ts ih =>
    unfold Balanced.upTo
    split
    · rfl
    · split
      · exact hprepend t (ih _ _)
      · split
        · split
          · exact ⟨[], rfl⟩
          · exact hprepend t (ih _ _)
        · exact hprepend t (ih _ _)

theorem all_of_append {s : TokenStream} {taken rest : List Token} (hs : s.All good)
    (h : s.ahead = taken ++ rest) : TokenStream.All good { s with ahead := rest } :=
  ⟨fun t ht => hs.1 t (h ▸ List.mem_append_right taken ht), hs.2⟩

theorem keeps_textUpTo (stops : List TokenKind) (what : String) :
    Keeps good (textUpTo stops what) := by
  unfold textUpTo
  refine ensures_get.bind fun s hs => ?_
  have hsplits := splits_upTo stops 0 none s.ahead
  split <;> rename_i hend <;> rw [hend] at hsplits
  · exact ensures_fail (all_peek hs 0) _
  · exact (ensures_set (all_of_append hs hsplits)).bind fun _ => keeps_read.bind fun _ =>
      ensures_pure trivial
  · exact (ensures_set (all_of_append hs (List.append_nil s.ahead).symm)).bind fun _ => ensures_fail hs.2 _
  · obtain ⟨taken, hsplits⟩ := hsplits
    have hleft := all_of_append hs hsplits
    exact (ensures_set hleft).bind fun _ => ensures_fail (hleft.1 _ (List.mem_cons_self ..)) _

theorem keeps_verbatimAttribute : Keeps good verbatimAttribute := by
  unfold verbatimAttribute
  refine (ensures_expect _).bind fun first hfirst => (keeps_expect _).bind fun _ =>
    ensures_get.bind fun s hs => ?_
  split
  · next taken rest hclosed =>
    exact (ensures_set (all_of_append hs (closeBracket_eq_some_iff.mp hclosed).1)).bind fun _ =>
      keeps_read.bind fun _ => ensures_pure trivial
  · exact (ensures_set (all_of_append hs (List.append_nil s.ahead).symm)).bind fun _ => ensures_fail hfirst.1 _

end Parser

end Typestate
