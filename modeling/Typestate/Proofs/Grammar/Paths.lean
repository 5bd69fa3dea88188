import Typestate.Grammar.Attribute
import Typestate.Proofs.Grammar.Passing

/-!
Paths and visibilities, as relations between tokens and their texts. A path or a visibility that is read is
derived from the tokens that were taken (`Parser.modulePath_derived`, `Parser.visibility_derived`).
-/

namespace Typestate

/-- The separator that a path from the root starts with, or nothing. -/
inductive RootDerived : List Token → String → Prop
  | none : RootDerived [] ""
  | separator {t : Token} (hkind : t.kind = .pathSeparator) : RootDerived [t] "::"

/-- A further name of a path, behind its separator. -/
inductive FurtherName : List Token → String → Prop
  | mk {separator t : Token} (hseparator : separator.kind = .pathSeparator) (hkind : t.kind = .identifier) :
    FurtherName [separator, t] t.value

/-- A path of modules. -/
inductive PathDerived : List Token → String → Prop
  | mk {root more : List Token} {t : Token} {start : String} {names : List String}
    (hroot : RootDerived root start) (hkind : t.kind = .identifier) (hmore : Many FurtherName more names) :
    PathDerived (root ++ t :: more) (names.foldl (fun path name => path ++ "::" ++ name) (start ++ t.value))

/-- A visibility, which may be restricted by a word or by a path behind one, or nothing. -/
inductive VisibilityDerived : List Token → String → Prop
  | none : VisibilityDerived [] ""
  | everywhere {word : Token} (hword : word.kind = .pub) : VisibilityDerived [word] "pub"
  | only {word opening scope closing : Token} (hword : word.kind = .pub) (hopening : opening.kind = .leftParen)
    (hscope : scope.kind = .identifier) (hvalue : scope.value ∈ ["crate", "super", "self"])
    (hclosing : closing.kind = .rightParen) :
    VisibilityDerived [word, opening, scope, closing] ("pub(" ++ scope.value ++ ")")
  | within {word opening scope closing : Token} {path : List Token} {text : String} (hword : word.kind = .pub)
    (hopening : opening.kind = .leftParen) (hscope : scope.kind = .identifier) (hvalue : scope.value = "in")
    (hpath : PathDerived path text) (hclosing : closing.kind = .rightParen) :
    VisibilityDerived (word :: opening :: scope :: (path ++ [closing])) ("pub(" ++ ("in " ++ text) ++ ")")

namespace Parser

open TokenStream

variable {src : Source} {s : TokenStream}

theorem modulePath_derived (hs : s.Ended) :
    Proceeds src s modulePath fun path s' => ∃ ts, PathDerived ts path ∧ Passes ts s s' := by
  have hnames : ∀ root start s₁, RootDerived root start → Passes root s s₁ → Proceeds src s₁ (do
      let first ← expect .identifier
      rounds (fun path => do
        if ← isAt .pathSeparator then
          let _ ← advance
          let next ← expect .identifier
          return .again (path ++ "::" ++ next.value)
        else return .done path) (start ++ first.value)) fun path s' =>
          ∃ ts, PathDerived ts path ∧ Passes ts s s' := by
    intro root start s₁ hroot h₁
    refine proceeds_expect (h₁.ended hs) nofun fun first s₂ h₂ _ hfirst => ?_
    refine from_rounds (fun path s' => ∃ more names, Many FurtherName more names ∧
      path = names.foldl (fun path name => path ++ "::" ++ name) (start ++ first.value) ∧
      Passes (root ++ first :: more) s s') ?_ ⟨[], [], .nil, rfl, h₁.trans h₂.passes⟩
    rintro _ s₃ ⟨more, names, hmany, rfl, h₃⟩
    refine proceeds_isAt_advance (h₃.ended hs) nofun (fun separator s₄ h₄ hs₄ hseparator => ?_) ?_
    · refine proceeds_expect hs₄ nofun fun next s₅ h₅ _ hnext => ?_
      have hpasses : Passes [separator, next] s₃ s₅ := h₄.trans_passes h₅.passes
      refine from_pure ⟨⟨_, _, hmany.concat (.mk hseparator hnext), ?_, ?_⟩, hpasses.fewer nofun⟩
      · rw [List.foldl_append]
        rfl
      · rw [← List.cons_append, ← List.append_assoc]
        exact h₃.trans hpasses
    · exact from_pure ⟨_, .mk hroot hfirst hmany, h₃⟩
  unfold modulePath
  refine proceeds_isAt_advance hs nofun (fun separator s₁ h₁ _ hseparator => ?_) ?_
  · exact hnames _ "::" s₁ (.separator hseparator) h₁.passes
  · exact hnames _ "" s .none (Passes.refl s)

theorem visibility_derived (hs : s.Ended) :
    Proceeds src s visibility fun vis s' => ∃ ts, VisibilityDerived ts vis ∧ Passes ts s s' := by
  unfold visibility
  refine proceeds_isNotAt (fun _ => from_pure ⟨_, .none, Passes.refl s⟩) fun hword => ?_
  refine proceeds_advance hs (by rw [hword]; nofun) fun s₁ h₁ hs₁ => ?_
  have heverywhere : ∃ ts, VisibilityDerived ts "pub" ∧ Passes ts s s₁ := ⟨_, .everywhere hword, h₁.passes⟩
  refine proceeds_isNotAt (fun _ => from_pure heverywhere) fun hopening => ?_
  refine from_peek (from_ite (fun _ => from_pure heverywhere) fun hrestriction => ?_)
  refine proceeds_advance hs₁ (by rw [hopening]; nofun) fun s₂ h₂ hs₂ => ?_
  obtain ⟨hscope, hvalue⟩ : s₂.current.kind = .identifier ∧ s₂.current.value ∈ restrictionWords := by
    rw [h₂.current]
    simpa using hrestriction
  refine proceeds_advance hs₂ (by rw [hscope]; nofun) fun s₃ h₃ hs₃ => ?_
  have hfront : Passes [s.current, s₁.current, s₂.current] s s₃ :=
    h₁.trans_passes (h₂.trans_passes h₃.passes)
  refine from_ite (fun hin => ?_) fun hin => ?_
  · refine (modulePath_derived hs₃).bind fun text s₄ ⟨path, hpath, h₄⟩ => ?_
    refine proceeds_expect (h₄.ended hs₃) nofun fun closing s₅ h₅ _ hclosing => ?_
    refine from_pure ⟨_, .within hword hopening hscope (beq_iff_eq.mp hin) hpath hclosing, ?_⟩
    exact hfront.trans (h₄.trans h₅.passes)
  · have hne : s₂.current.value ≠ "in" := fun h => hin (beq_iff_eq.mpr h)
    have hother : s₂.current.value ∈ ["crate", "super", "self"] := by
      simpa [restrictionWords, hne] using hvalue
    refine proceeds_expect hs₃ nofun fun closing s₄ h₄ _ hclosing => ?_
    exact from_pure ⟨_, .only hword hopening hscope hother hclosing, hfront.trans h₄.passes⟩

end Parser

end Typestate
