import Typestate.Proofs.Grammar.Moving

/-!
Readers that come to a result. `Proceeds` is what such a reader does from a stream on: whatever it complains of,
it does not stand still. Which tokens it takes is said by `Passes`, and what they are by relations between
tokens and results, of which `Many` makes one for several results.
-/

namespace Typestate

/-- Several things, one behind the other, and the tokens of all of them. -/
inductive Many {α : Type} (item : List Token → α → Prop) : List Token → List α → Prop
  | nil : Many item [] []
  | cons {ts more : List Token} {x : α} {xs : List α} (h : item ts x) (hmore : Many item more xs) :
    Many item (ts ++ more) (x :: xs)

theorem Many.concat {α : Type} {item : List Token → α → Prop} {ts more : List Token} {x : α}
    {xs : List α} (h : Many item ts xs) (hx : item more x) : Many item (ts ++ more) (xs ++ [x]) := by
  induction h with
  | nil =>
    rw [List.nil_append, List.nil_append, ← List.append_nil more]
    exact .cons hx .nil
  | cons hitem _ ih =>
    rw [List.append_assoc, List.cons_append]
    exact .cons hitem ih

/-! ## What is passed -/

namespace TokenStream

/-- Some tokens are at the front of the first stream, and the second is what comes behind them. -/
structure Passes (ts : List Token) (s s' : TokenStream) : Prop where
  last : s'.last = s.last
  ahead : s.ahead = ts ++ s'.ahead

variable {s s₁ s₂ : TokenStream} {ts us : List Token} {t : Token}

theorem Passes.refl (s : TokenStream) : Passes [] s s := ⟨rfl, rfl⟩

theorem Passes.trans (h₁ : Passes ts s s₁) (h₂ : Passes us s₁ s₂) : Passes (ts ++ us) s s₂ where
  last := h₂.last.trans h₁.last
  ahead := by rw [h₁.ahead, h₂.ahead, List.append_assoc]

theorem Takes.passes (h : Takes t s s₁) : Passes [t] s s₁ := ⟨h.last, h.ahead⟩

theorem Takes.trans_passes (h₁ : Takes t s s₁) (h₂ : Passes ts s₁ s₂) : Passes (t :: ts) s s₂ :=
  h₁.passes.trans h₂

theorem Passes.ended (h : Passes ts s s₁) (hs : s.Ended) : s₁.Ended := by
  unfold Ended
  rw [h.last]
  exact hs

theorem Passes.fewer (h : Passes ts s s₁) (hts : ts ≠ []) : s₁.ahead.length < s.ahead.length := by
  have hlength : 0 < ts.length := List.length_pos_iff.mpr hts
  rw [h.ahead, List.length_append]
  omega

theorem Passes.leads (h : Passes ts s s₁) : s.Leads s₁ := ⟨h.last, h.ahead ▸ List.suffix_append ts s₁.ahead⟩

theorem Passes.moves (h : Passes ts s s₁) (hts : ts ≠ []) : s.Moves s₁ := ⟨h.leads, h.fewer hts⟩

theorem Takes.current_eq (h : Takes t s s₁) : s.current = t := by
  unfold TokenStream.current TokenStream.peek
  rw [h.ahead]
  rfl

end TokenStream

namespace Parser

open TokenStream

/-- From the stream on, the reader comes to a result, or it complains, but not of standing still. -/
abbrev Proceeds {α : Type} (src : Source) (s : TokenStream) (p : Parser α)
    (post : α → TokenStream → Prop) : Prop :=
  From (fun cause => cause ≠ .stalled) src s p post

variable {α β : Type} {src : Source} {s : TokenStream}

theorem proceeds_fail {t : Token} {cause : ParseCause} {post : α → TokenStream → Prop}
    (h : cause ≠ .stalled) : Proceeds src s (fail t cause) post := from_fail h

theorem proceeds_advance {next : Token → Parser β} {post : β → TokenStream → Prop} (hs : s.Ended)
    (h : s.current.kind ≠ .endOfInput)
    (hn : ∀ s', Takes s.current s s' → s'.Ended → Proceeds src s' (next s.current) post) :
    Proceeds src s (advance >>= next) post :=
  from_advance hs h fun s' htakes => hn s' htakes (htakes.moves.ended hs)

theorem proceeds_expect {k : TokenKind} {next : Token → Parser β} {post : β → TokenStream → Prop}
    (hs : s.Ended) (hk : k ≠ .endOfInput)
    (hn : ∀ t s', Takes t s s' → s'.Ended → t.kind = k → Proceeds src s' (next t) post) :
    Proceeds src s (expect k >>= next) post :=
  from_expect hs hk (fun _ => ParseCause.noConfusion) fun t s' htakes hkind =>
    hn t s' htakes (htakes.moves.ended hs) hkind

/-- A reader that does one of two things, as the kind of the next token says. -/
theorem proceeds_isAt {k : TokenKind} {yes no : Parser β} {post : β → TokenStream → Prop}
    (hyes : s.current.kind = k → Proceeds src s yes post) (hno : Proceeds src s no post) :
    Proceeds src s (isAt k >>= fun b => if b = true then yes else no) post :=
  from_isAt (fun hkind => from_ite (fun _ => hyes hkind) fun h => absurd rfl h)
    fun _ => from_ite (fun h => Bool.noConfusion h) fun _ => hno

theorem proceeds_isNotAt {k : TokenKind} {yes no : Parser β} {post : β → TokenStream → Prop}
    (hno : s.current.kind ≠ k → Proceeds src s no post)
    (hyes : s.current.kind = k → Proceeds src s yes post) :
    Proceeds src s (isAt k >>= fun b => if !b then no else yes) post :=
  from_isAt (fun hkind => from_ite (fun h => Bool.noConfusion h) fun _ => hyes hkind)
    fun hkind => from_ite (fun _ => hno hkind) fun h => absurd rfl h

/-- The reader of the first of two things takes the token. -/
theorem proceeds_isAt_advance {k : TokenKind} {yes : Token → Parser β} {no : Parser β}
    {post : β → TokenStream → Prop} (hs : s.Ended) (hk : k ≠ .endOfInput)
    (hyes : ∀ t s', Takes t s s' → s'.Ended → t.kind = k → Proceeds src s' (yes t) post)
    (hno : Proceeds src s no post) :
    Proceeds src s (isAt k >>= fun b => if b = true then advance >>= yes else no) post :=
  proceeds_isAt (fun hkind => proceeds_advance hs (by rwa [hkind]) fun s' htakes hs' =>
    hyes _ s' htakes hs' hkind) hno

theorem proceeds_expect_endOfInput :
    Proceeds src s (expect .endOfInput) fun _ _ => s.current.kind = .endOfInput := by
  unfold expect
  refine from_current (from_ite (fun hend => ?_) fun _ => proceeds_fail nofun)
  unfold From
  rw [advance_apply]
  exact hend

end Parser

end Typestate
