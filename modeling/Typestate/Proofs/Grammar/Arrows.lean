import Typestate.Grammar.Statement
import Typestate.Proofs.Grammar.Passing

/-!
Arrows, as a relation between tokens and what they say. An arrow that is read is derived from the tokens that
were taken (`Parser.arrow_derived`).
-/

namespace Typestate

/-- What stands inside an arrow: a name, a string, or both in this order. -/
inductive LabelDerived : List Token → ArrowForm → Prop
  | name {t : Token} (hname : t.kind.isName = true) : LabelDerived [t] (.named t.value [])
  | text {t : Token} (htext : t.kind = .string) : LabelDerived [t] (.documented (Parser.inlineDocs t.value))
  | both {t u : Token} (hname : t.kind.isName = true) (htext : u.kind = .string) :
    LabelDerived [t, u] (.named t.value (Parser.inlineDocs u.value))

/-- A dash or nothing. -/
inductive DashDerived : List Token → Prop
  | none : DashDerived []
  | one {t : Token} (hkind : t.kind = .minus) : DashDerived [t]

/-- An arrow in one of its spellings. -/
inductive ArrowDerived : List Token → Arrow → Prop
  | plain {head : Token} (hhead : head.kind = .arrow) :
    ArrowDerived [head] { form := .plain, span := some head.span }
  | long {dash head : Token} (hdash : dash.kind = .minus) (hhead : head.kind = .arrow) :
    ArrowDerived [dash, head] { form := .long, span := some (dash.spanTo head) }
  | labelled {dash head : Token} {front label back : List Token} {form : ArrowForm}
    (hdash : dash.kind = .minus) (hfront : DashDerived front) (hlabel : LabelDerived label form)
    (hback : DashDerived back) (hhead : head.kind = .arrow) :
    ArrowDerived (dash :: (front ++ (label ++ (back ++ [head]))))
      { form, span := some (dash.spanTo head) }

theorem ArrowDerived.ne_nil {ts : List Token} {a : Arrow} (h : ArrowDerived ts a) : ts ≠ [] := by
  cases h <;> nofun

namespace Parser

open TokenStream

variable {src : Source} {s : TokenStream}

theorem arrowHead_derived (hs : s.Ended) :
    Proceeds src s arrowHead fun head s' => head.kind = .arrow ∧ Takes head s s' := by
  unfold arrowHead
  refine from_current (from_ite (fun hkind => ?_) fun _ => proceeds_fail nofun)
  rw [← bind_pure advance]
  exact proceeds_advance hs (by rw [hkind]; nofun) fun _ h₁ _ => from_pure ⟨hkind, h₁⟩

theorem expectName_derived (hs : s.Ended) :
    Proceeds src s expectName fun t s' => t.kind.isName = true ∧ Takes t s s' := by
  unfold expectName
  refine from_current (from_ite (fun hname => ?_) fun _ => proceeds_fail nofun)
  have hne : s.current.kind ≠ .endOfInput := by
    intro hend
    rw [hend] at hname
    cases hname
  rw [← bind_pure advance]
  exact proceeds_advance hs hne fun _ h₁ _ => from_pure ⟨hname, h₁⟩

theorem arrowLabel_derived (hs : s.Ended) :
    Proceeds src s arrowLabel fun form s' => ∃ ts, LabelDerived ts form ∧ Passes ts s s' := by
  unfold arrowLabel
  refine proceeds_isAt_advance hs nofun (fun text s₁ h₁ _ htext => ?_) ?_
  · exact from_pure ⟨_, .text htext, h₁.passes⟩
  · refine (expectName_derived hs).bind fun name s₁ ⟨hname, h₁⟩ => ?_
    refine proceeds_isAt_advance (h₁.moves.ended hs) nofun (fun text s₂ h₂ _ htext => ?_) ?_
    · exact from_pure ⟨_, .both hname htext, h₁.trans_passes h₂.passes⟩
    · exact from_pure ⟨_, .name hname, h₁.passes⟩

/-- A dash that may be there is taken, whatever comes behind it. -/
theorem proceeds_dash {α : Type} {next : Parser α} {post : α → TokenStream → Prop} (hs : s.Ended)
    (h : ∀ ts s', DashDerived ts → Passes ts s s' → Proceeds src s' next post) :
    Proceeds src s (do
      if ← isAt .minus then
        let _ ← advance
      next) post := by
  refine proceeds_isAt_advance hs nofun (fun dash s₁ h₁ _ hdash => ?_) ?_
  · exact h _ s₁ (.one hdash) h₁.passes
  · exact h _ s .none (Passes.refl s)

theorem arrow_derived (hs : s.Ended) :
    Proceeds src s arrow fun a s' => ∃ ts, ArrowDerived ts a ∧ Passes ts s s' := by
  unfold arrow
  refine from_current ?_
  split
  · next hkind =>
    refine proceeds_advance hs (by rw [hkind]; nofun) fun s₁ h₁ _ => ?_
    exact from_pure ⟨_, .plain hkind, h₁.passes⟩
  · next hdash =>
    refine proceeds_advance hs (by rw [hdash]; nofun) fun s₁ h₁ hs₁ => ?_
    refine proceeds_isAt_advance hs₁ nofun (fun head s₂ h₂ _ hhead => ?_) ?_
    · exact from_pure ⟨_, .long hdash hhead, h₁.trans_passes h₂.passes⟩
    · refine proceeds_dash hs₁ fun front s₂ hfront h₂ => ?_
      refine (arrowLabel_derived (h₂.ended hs₁)).bind fun form s₃ ⟨label, hlabel, h₃⟩ => ?_
      have hs₃ : s₃.Ended := h₃.ended (h₂.ended hs₁)
      refine proceeds_dash hs₃ fun back s₄ hback h₄ => ?_
      refine (arrowHead_derived (h₄.ended hs₃)).bind fun head s₅ ⟨hhead, h₅⟩ => ?_
      refine from_pure ⟨_, .labelled hdash hfront hlabel hback hhead, ?_⟩
      exact h₁.trans_passes (h₂.trans (h₃.trans (h₄.trans h₅.passes)))
  · exact proceeds_fail nofun

end Parser

end Typestate
