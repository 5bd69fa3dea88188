import Typestate.Proofs.Grammar.TypeEnd
import Typestate.Proofs.Token.Brackets

/-!
Lists of generic parameters. Each parameter has a name, and bounds and a default or not, in which brackets close
one another, and such a list is read up to the angle bracket that closes it (`Parser.finds_generics`).
-/

namespace Typestate

/-! ## Kinds of tokens -/

theorem TokenKind.level_singleton_opening {kind : TokenKind} (h : kind.isOpening = true) : level [kind] = 1 := by
  simp [level, h, not_isClosing_of_isOpening h]

theorem TokenKind.level_singleton_closing {kind : TokenKind} (h : kind.isClosing = true) : level [kind] = -1 := by
  simp [level, h, not_isOpening_of_isClosing h]

theorem Balanced.Shifts.level {kind : TokenKind} {depth depth' : Nat} (h : Shifts kind depth depth') :
    (depth' : Int) = depth + TokenKind.level [kind] := by
  cases h with
  | opening h =>
    rw [TokenKind.level_singleton_opening h]
    omega
  | closing h =>
    rw [TokenKind.level_singleton_closing h]
    omega
  | other hopening hclosing => simp [TokenKind.level, hopening, hclosing]

theorem Matched.level {kinds : List TokenKind} (h : Matched kinds) : TokenKind.level kinds = 0 := by
  have hbalanced := h.balanced
  simp only [TokenKind.level]
  omega

theorem Matched.append {front back : List TokenKind} (hfront : Matched front) (hback : Matched back) :
    Matched (front ++ back) where
  balanced := by rw [List.countP_append, List.countP_append, hfront.balanced, hback.balanced]
  closing first hfirst := by
    obtain ⟨rest, hrest⟩ := hfirst
    rcases List.append_eq_append_iff.mp hrest with ⟨more, rfl, -⟩ | ⟨more, rfl, hmore⟩
    · exact hfront.closing first (List.prefix_append first more)
    · have hmid := hback.closing more ⟨rest, hmore.symm⟩
      rw [List.countP_append, List.countP_append, hfront.balanced]
      omega

theorem matched_singleton {kind : TokenKind} (hopening : kind.isOpening = false) (hclosing : kind.isClosing = false) :
    Matched [kind] where
  balanced := by simp [hopening, hclosing]
  closing front hfront := by
    rcases List.prefix_cons_iff.mp hfront with rfl | ⟨more, rfl, hmore⟩
    · exact Nat.le_refl 0
    · rw [List.prefix_nil.mp hmore]
      simp [hclosing]

variable {sep : TokenKind} {seps : List TokenKind}

instance (sep : TokenKind) (depth : Int) (kinds : List TokenKind) : Decidable (Inside sep depth kinds) :=
  decidable_of_iff (∀ front ∈ kinds.inits, front ++ [sep] <+: kinds → depth + TokenKind.level front ≠ 0)
    ⟨fun h front hfront => h front ((List.mem_inits ..).mpr ((List.prefix_append ..).trans hfront)) hfront,
      fun h front _ hfront => h front hfront⟩

/-- The brackets of some tokens close one another, and no token that separates stands outside of them. -/
structure Sealed (seps kinds : List TokenKind) : Prop where
  matched : Matched kinds
  inside : ∀ sep ∈ seps, Inside sep 0 kinds

instance (seps kinds : List TokenKind) : Decidable (Sealed seps kinds) :=
  decidable_of_iff (Matched kinds ∧ ∀ sep ∈ seps, Inside sep 0 kinds) ⟨fun h => ⟨h.1, h.2⟩, fun h => ⟨h.1, h.2⟩⟩

theorem sealed_nil : Sealed seps [] where
  matched := ⟨rfl, fun front hfront => by rw [List.prefix_nil.mp hfront]; exact Nat.le_refl 0⟩
  inside sep _ front hfront := absurd (List.prefix_nil.mp hfront) (by simp)

theorem sealed_singleton {kind : TokenKind} (hopening : kind.isOpening = false) (hclosing : kind.isClosing = false)
    (hkind : kind ∉ seps) : Sealed seps [kind] where
  matched := matched_singleton hopening hclosing
  inside sep hsep := .cons (fun hsame => absurd (hsame ▸ hsep) hkind) fun front hfront =>
    absurd (List.prefix_nil.mp hfront) (by simp)

theorem Sealed.append {front back : List TokenKind} (hfront : Sealed seps front) (hback : Sealed seps back) :
    Sealed seps (front ++ back) where
  matched := hfront.matched.append hback.matched
  inside sep hsep := (hfront.inside sep hsep).append (by
    rw [hfront.matched.level]
    exact hback.inside sep hsep)

theorem Sealed.mono {seps' kinds : List TokenKind} (h : Sealed seps kinds) (hsub : seps' ⊆ seps) :
    Sealed seps' kinds := ⟨h.matched, fun sep hsep => h.inside sep (hsub hsep)⟩

/-! ## Written parameters -/

/-- The keyword in front of the name of a constant. -/
def constWord : String := "const"

/-- What a parameter is called by: a lifetime, a name other than the keyword of constants, or the name of a
constant behind the keyword. -/
inductive CalledBy : List Token → Token → Prop
  | lifetime {t : Token} (ht : t.kind = .lifetime) : CalledBy [t] t
  | name {t : Token} (ht : t.kind.isName = true) (hword : t.value ≠ constWord) : CalledBy [t] t
  | constant {word t : Token} (hkind : word.kind = .identifier) (hword : word.value = constWord)
    (ht : t.kind.isName = true) : CalledBy [word, t] t

/-- Nothing, or a sign and the tokens that it brings: their brackets close one another, and of the kinds in
`seps` there is none outside of them. -/
inductive Brought (sign : TokenKind) (seps : List TokenKind) : List Token → Prop
  | none : Brought sign seps []
  | some {t : Token} {ts : List Token} (ht : t.kind = sign) (hts : Sealed seps (ts.map Token.kind)) :
    Brought sign seps (t :: ts)

/-- A generic parameter in a text: its name, the tokens that declare it, and those of its default, from the
equals sign on. -/
structure WrittenParameter where
  name : Token
  declared : List Token
  default : List Token

namespace WrittenParameter

def tokens (p : WrittenParameter) : List Token := p.declared ++ p.default

/-- Behind what the parameter is called by, there may be a colon and bounds, and an equals sign and a default.
No comma stands outside of brackets in them, and no equals sign in the bounds. -/
structure WellFormed (p : WrittenParameter) : Prop where
  declared : ∃ called bounds, p.declared = called ++ bounds ∧ CalledBy called p.name ∧
    Brought .colon [.comma, .equals] bounds
  default : Brought .equals [.comma] p.default

end WrittenParameter

/-- Some parameters with a comma between each and the next, and perhaps one behind the last. -/
inductive ParameterList : List WrittenParameter → List Token → Prop
  | none : ParameterList [] []
  | last {p : WrittenParameter} (hp : p.WellFormed) : ParameterList [p] p.tokens
  | next {p : WrittenParameter} {ps : List WrittenParameter} {comma : Token} {ts : List Token}
    (hp : p.WellFormed) (hcomma : comma.kind = .comma) (hrest : ParameterList ps ts) :
    ParameterList (p :: ps) (p.tokens ++ comma :: ts)

theorem CalledBy.kind {called : List Token} {name : Token} (h : CalledBy called name) :
    name.kind = .lifetime ∨ name.kind.isName = true := by
  cases h with
  | lifetime ht => exact Or.inl ht
  | name ht => exact Or.inr ht
  | constant _ _ ht => exact Or.inr ht

theorem sealed_name {kind : TokenKind} (hkind : kind = .lifetime ∨ kind.isName = true)
    (hseps : ∀ sep ∈ seps, sep ≠ .lifetime ∧ sep.isName = false) : Sealed seps [kind] := by
  have hother : kind ∉ seps := by
    intro hmem
    obtain ⟨hlifetime, hname⟩ := hseps kind hmem
    rcases hkind with hkind | hkind
    · exact hlifetime hkind
    · rw [hname] at hkind
      cases hkind
  have hlevel : kind.isOpening = false ∧ kind.isClosing = false := by
    cases kind <;> first | exact ⟨rfl, rfl⟩ | (rcases hkind with hkind | hkind <;> cases hkind)
  exact sealed_singleton hlevel.1 hlevel.2 hother

theorem CalledBy.sealed {called : List Token} {name : Token} (h : CalledBy called name)
    (hseps : ∀ sep ∈ seps, sep ≠ .lifetime ∧ sep.isName = false) : Sealed seps (called.map Token.kind) := by
  have hname := sealed_name h.kind hseps
  cases h with
  | lifetime => exact hname
  | name => exact hname
  | @constant word _ hkind =>
    have hword : Sealed seps [word.kind] := sealed_name (Or.inr (by rw [hkind]; rfl)) hseps
    exact hword.append hname

theorem Brought.sealed {sign : TokenKind} {ts : List Token} (h : Brought sign seps ts)
    (hopening : sign.isOpening = false) (hclosing : sign.isClosing = false) (hsign : sign ∉ seps) :
    Sealed seps (ts.map Token.kind) := by
  cases h with
  | none => exact sealed_nil
  | @some t ts ht hts =>
    have hfirst : Sealed seps [t.kind] := by
      rw [ht]
      exact sealed_singleton hopening hclosing hsign
    exact hfirst.append hts

namespace WrittenParameter.WellFormed

variable {p : WrittenParameter}

theorem sealed_declared (h : p.WellFormed) : Sealed [.comma, .equals] (p.declared.map Token.kind) := by
  obtain ⟨called, bounds, hdeclared, hcalled, hbounds⟩ := h.declared
  rw [hdeclared, List.map_append]
  exact (hcalled.sealed (by decide)).append (hbounds.sealed rfl rfl (by decide))

theorem declared_ne_nil (h : p.WellFormed) : p.declared ≠ [] := by
  obtain ⟨called, bounds, hdeclared, hcalled, -⟩ := h.declared
  rw [hdeclared]
  cases hcalled <;> exact List.cons_ne_nil _ _

theorem tokens_ne_nil (h : p.WellFormed) : p.tokens ≠ [] :=
  List.append_ne_nil_of_left_ne_nil h.declared_ne_nil p.default

theorem sealed_tokens (h : p.WellFormed) : Sealed [.comma] (p.tokens.map Token.kind) := by
  rw [tokens, List.map_append]
  exact (h.sealed_declared.mono (by simp)).append (h.default.sealed rfl rfl (by decide))

end WrittenParameter.WellFormed

theorem ParameterList.matched {ps : List WrittenParameter} {ts : List Token} (h : ParameterList ps ts) :
    Matched (ts.map Token.kind) := by
  induction h with
  | none => exact (sealed_nil : Sealed [] []).matched
  | last hp => exact hp.sealed_tokens.matched
  | @next p ps comma ts hp hcomma _ ih =>
    have hfirst : Matched [comma.kind] := by
      rw [hcomma]
      exact matched_singleton rfl rfl
    rw [List.map_append, List.map_cons, ← List.singleton_append]
    exact hp.sealed_tokens.matched.append (hfirst.append ih)

/-! ## Reading -/

section
variable {stops : List TokenKind} {closing : Token} {rest : List Token}

/-- Tokens whose brackets close one another are passed up to a bracket that closes what is open around them. -/
theorem upTo_of_level (hstops : ∀ kind ∈ stops, kind.isClosing = true) (hclosing : closing.kind ∈ stops)
    {ts : List Token} {depth : Nat} {previous : Option TokenKind}
    (hfronts : ∀ front, front <+: ts.map Token.kind → 0 ≤ depth + TokenKind.level front)
    (hlevel : depth + TokenKind.level (ts.map Token.kind) = 0) :
    Balanced.upTo stops depth previous (ts ++ closing :: rest) = .stopped ts (closing :: rest) := by
  induction ts generalizing depth previous with
  | nil =>
    obtain rfl : depth = 0 := by simpa [TokenKind.level] using hlevel
    refine Balanced.upTo_of_stop hclosing fun harrow => ?_
    have hclosed := hstops _ hclosing
    rw [harrow] at hclosed
    cases hclosed
  | cons t ts ih =>
    have hfirst := hfronts [t.kind] (List.cons_prefix_cons.mpr ⟨rfl, List.nil_prefix⟩)
    rw [List.map_cons, TokenKind.level_cons, ← Int.add_assoc] at hlevel
    have hbehind : ∀ front, front <+: ts.map Token.kind →
        0 ≤ depth + TokenKind.level [t.kind] + TokenKind.level front := by
      intro front hfront
      have hall := hfronts (t.kind :: front) (List.cons_prefix_cons.mpr ⟨rfl, hfront⟩)
      rwa [TokenKind.level_cons, ← Int.add_assoc] at hall
    have hopen : t.kind.isClosing = true → depth ≠ 0 := by
      intro hclosed
      rw [TokenKind.level_singleton_closing hclosed] at hfirst
      omega
    obtain ⟨depth', hshifts⟩ := Balanced.exists_shifts hopen
    rw [← hshifts.level] at hbehind hlevel
    rw [List.cons_append, Balanced.upTo_of_shifts (fun hdepth hstop => absurd hdepth (hopen (hstops _ hstop))) hshifts,
      ih hbehind hlevel]
    rfl

end

namespace Parser

variable {src : Source} {opening closing : Token} {inner after : List Token} {last : Token}

/-- A list of parameters is read, with its angle brackets; nothing is left of one without parameters. -/
theorem finds_generics (hopening : opening.kind = .lessThan) (hclosing : closing.kind = .greaterThan)
    (h : Matched (inner.map Token.kind)) :
    Finds src ⟨opening :: (inner ++ closing :: after), last⟩ generics fun text s' =>
      text = (if inner = [] then "" else "<" ++ String.intercalate ", "
        (Text.splitOutsideBrackets (src.textOf inner) (· == ',')) ++ ">") ∧ s' = ⟨after, last⟩ := by
  unfold generics
  refine finds_isAt hopening (finds_advance ?_)
  cases inner with
  | nil => exact finds_isAt hclosing (finds_advance (from_pure ⟨rfl, rfl⟩))
  | cons t ts =>
    have hfirst := h.closing [t.kind] (List.cons_prefix_cons.mpr ⟨rfl, List.nil_prefix⟩)
    have hother : t.kind ≠ .greaterThan := by
      intro hkind
      rw [hkind] at hfirst
      exact absurd hfirst (by decide)
    have hfronts : ∀ front, front <+: (t :: ts).map Token.kind → 0 ≤ ((0 : Nat) : Int) + TokenKind.level front := by
      intro front hfront
      have hclosed := h.closing front hfront
      simp only [TokenKind.level]
      omega
    have hstopped : Balanced.upTo [.greaterThan] 0 none (t :: ts ++ closing :: after) =
        .stopped (t :: ts) (closing :: after) :=
      upTo_of_level (by decide) (by simp [hclosing]) hfronts (by rw [h.level]; rfl)
    refine finds_isNotAt hother ((finds_textUpTo (List.cons_ne_nil t ts) hstopped).bind ?_)
    rintro _ _ ⟨rfl, rfl⟩
    exact finds_expect hclosing (from_pure ⟨rfl, rfl⟩)

end Parser

end Typestate
