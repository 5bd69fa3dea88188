import Typestate.Proofs.Grammar.Brackets
import Typestate.Proofs.Grammar.Derivation
import Typestate.Proofs.Grammar.Parameters

/-!
The grammar of headers, as a relation between tokens and what they say. A header that is read is derived from
the tokens that were taken (`Parser.header_derived`), and so are statements up to the token that ends them
(`Parser.statements_derived`).
-/

namespace Typestate

/-! ## The grammar -/

/-- The word that may stand in front of a machine's name, or nothing. -/
inductive EnumDerived : List Token → Prop
  | none : EnumDerived []
  | word {t : Token} (hkind : t.kind = .identifier) (hword : t.value = enumWord) : EnumDerived [t]

/-- Generic parameters in angle brackets, whose own brackets are nested if their kinds are left aside, or
nothing. -/
inductive GenericsDerived (src : Source) : List Token → String → Prop
  | none : GenericsDerived src [] ""
  | empty {opening closing : Token} (hopening : opening.kind = .lessThan)
    (hclosing : closing.kind = .greaterThan) : GenericsDerived src [opening, closing] ""
  | some {opening closing : Token} {inner : List Token} (hopening : opening.kind = .lessThan)
    (hclosing : closing.kind = .greaterThan) (hne : inner ≠ [])
    (hnested : NestedAlike (inner.map Token.kind)) :
    GenericsDerived src (opening :: (inner ++ [closing])) ("<" ++
      String.intercalate ", " (Text.splitOutsideBrackets (src.textOf inner) (· == ',')) ++ ">")

/-- Where predicates, in which a brace opens inside of other brackets only, or nothing. -/
inductive ClauseDerived (src : Source) : List Token → List String → Prop
  | none : ClauseDerived src [] []
  | empty {word : Token} (hword : word.kind = .whereWord) : ClauseDerived src [word] []
  | some {word : Token} {taken : List Token} (hword : word.kind = .whereWord) (hne : taken ≠ [])
    (hnested : NestedAlike (taken.map Token.kind)) (hbrace : Inside .leftBrace 0 (taken.map Token.kind))
    (hpredicates : Text.splitOutsideBrackets (src.textOf taken) (· == ',') ≠ []) :
    ClauseDerived src (word :: taken) (Text.splitOutsideBrackets (src.textOf taken) (· == ','))

/-- A header: a visibility, the word, the name, parameters and predicates. -/
inductive HeaderDerived (src : Source) : List Token → Header → Prop
  | mk {front word params clause : List Token} {name : Token} {vis generics : String}
    {predicates : List String} (hvis : VisibilityDerived front vis) (hword : EnumDerived word)
    (hname : name.kind = .identifier) (hgenerics : GenericsDerived src params generics)
    (hclause : ClauseDerived src clause predicates) :
    HeaderDerived src (front ++ (word ++ name :: (params ++ clause))) { vis, name, generics, predicates }

namespace Parser

open TokenStream

variable {src : Source} {s : TokenStream}

/-! ## Parameters and predicates -/

theorem generics_derived (hs : s.Ended) :
    Proceeds src s generics fun text s' => ∃ ts, GenericsDerived src ts text ∧ Passes ts s s' := by
  refine (generics_taken hs).weaken fun text s' ⟨hleads, params, hahead, htext⟩ => ?_
  refine ⟨params, ?_, hleads.last, hahead⟩
  rcases htext with ⟨rfl, rfl⟩ | ⟨inner, ⟨opening, closing, rfl, hopening, hclosing, hstopped⟩, htext⟩
  · exact .none
  · rcases htext with ⟨rfl, rfl⟩ | ⟨hne, rfl⟩
    · exact .empty hopening hclosing
    · exact .some hopening hclosing hne (closing_of_reaches (.of_upTo (hstopped.resolve_left hne)))

/-- What is taken up to a stop has no such token outside of brackets. -/
theorem inside_of_reaches {stops : List TokenKind} {stop : TokenKind} (hstop : stop ∈ stops)
    (hother : stop ≠ .arrow) {depth : Nat} {previous : Option TokenKind} {taken rest : List Token}
    (h : Balanced.Reaches stops depth previous taken rest) : Inside stop depth (taken.map Token.kind) := by
  induction h with
  | stop => exact fun front hfront => absurd (List.prefix_nil.mp hfront) (by simp)
  | @pass depth depth' previous t taken rest hpasses hshifts _ ih =>
    have houtside : t.kind = stop → (depth : Int) ≠ 0 := by
      rintro rfl hdepth
      exact hother (hpasses (Int.ofNat_eq_zero.mp hdepth) hstop).1
    rw [hshifts.level] at ih
    exact .cons houtside ih

theorem whereClause_derived (hs : s.Ended) :
    Proceeds src s whereClause fun predicates s' =>
      ∃ ts, ClauseDerived src ts predicates ∧ Passes ts s s' := by
  unfold whereClause
  refine proceeds_isNotAt (fun _ => from_pure ⟨_, .none, Passes.refl s⟩) fun hword => ?_
  refine proceeds_advance hs (by rw [hword]; nofun) fun s₁ h₁ _ => ?_
  refine proceeds_isAt (fun _ => from_pure ⟨_, .empty hword, h₁.passes⟩) ?_
  refine (textUpTo_taken _ _).bind ?_
  rintro _ s₂ ⟨taken, h₂, rfl⟩
  refine from_ite (fun _ => from_fail_bind nofun) fun hpredicates => ?_
  have hstop : TokenKind.leftBrace ∈ [TokenKind.leftBrace] := List.mem_singleton.mpr rfl
  have hbrace : Inside .leftBrace 0 (taken.map Token.kind) := inside_of_reaches hstop nofun (.of_upTo h₂.stopped)
  refine from_pure ⟨_, .some hword h₂.nonempty (closing_of_reaches (.of_upTo h₂.stopped)) hbrace ?_, ?_⟩
  · simpa using hpredicates
  · exact h₁.trans_passes ⟨h₂.last, h₂.ahead⟩

/-! ## Headers -/

theorem header_derived (hs : s.Ended) :
    Proceeds src s header fun h s' => ∃ ts, HeaderDerived src ts h ∧ Passes ts s s' := by
  have hname : ∀ front word vis s₁, VisibilityDerived front vis → EnumDerived word →
      Passes (front ++ word) s s₁ → Proceeds src s₁ (do
        let name ← expect .identifier
        let generics ← generics
        let predicates ← whereClause
        return { vis, name, generics, predicates }) fun h s' =>
          ∃ ts, HeaderDerived src ts h ∧ Passes ts s s' := by
    intro front word vis s₁ hvis hword h₁
    refine proceeds_expect (h₁.ended hs) nofun fun name s₂ h₂ hs₂ hname => ?_
    refine (generics_derived hs₂).bind fun text s₃ ⟨params, hparams, h₃⟩ => ?_
    refine (whereClause_derived (h₃.ended hs₂)).bind fun predicates s₄ ⟨clause, hclause, h₄⟩ => ?_
    refine from_pure ⟨_, .mk hvis hword hname hparams hclause, ?_⟩
    rw [← List.append_assoc]
    exact h₁.trans (h₂.trans_passes (h₃.trans h₄))
  unfold header
  refine (visibility_derived hs).bind fun vis s₁ ⟨front, hvis, h₁⟩ => ?_
  refine from_get (from_ite (fun hword => ?_) fun _ => ?_)
  · simp only [Bool.and_eq_true, beq_iff_eq] at hword
    obtain ⟨⟨hkind, hvalue⟩, -⟩ := hword
    refine proceeds_advance (h₁.ended hs) (by rw [hkind]; nofun) fun s₂ h₂ _ => ?_
    exact hname front _ vis s₂ hvis (.word hkind hvalue) (h₁.trans h₂.passes)
  · exact hname front [] vis s₁ hvis .none (by rwa [List.append_nil])

/-! ## Statements -/

theorem ne_nil_of_statementDerived {ts : List Token} {st : Statement} (h : StatementDerived src ts st) :
    ts ≠ [] := by
  cases h <;> simp

theorem statements_derived (terminator : TokenKind) (hs : s.Ended) :
    Proceeds src s (statements terminator) fun sts s' =>
      ∃ ts, Many (StatementDerived src) ts sts ∧ Passes ts s s' ∧ s'.current.kind = terminator := by
  unfold statements
  refine from_rounds (fun sts s' => ∃ ts, Many (StatementDerived src) ts sts ∧ Passes ts s s') ?_
    ⟨[], .nil, Passes.refl s⟩
  rintro sts s₁ ⟨ts, hmany, h₁⟩
  refine proceeds_isAt (fun hend => from_pure ⟨ts, hmany, h₁, hend⟩) (from_current ?_)
  refine from_ite (fun _ => from_fail_bind nofun) fun _ => ?_
  refine (statement_sound (h₁.ended hs)).bind fun st s₂ ⟨more, hst, h₂⟩ => ?_
  exact from_pure ⟨⟨_, hmany.concat hst, h₁.trans h₂⟩, h₂.fewer (ne_nil_of_statementDerived hst)⟩

end Parser

end Typestate
