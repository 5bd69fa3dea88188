import Typestate.Proofs.Code.Parameters
import Typestate.Proofs.Grammar.Capture
import Typestate.Proofs.Grammar.Parameters
import Typestate.Proofs.Text.Rejoining
import Typestate.Proofs.Token.Place
import Typestate.Proofs.Token.Plain

/-!
Generic parameters. A list of parameters, each with bounds and a default or without, is read as a text that
is taken apart into as many, and of each of them generated code has the name, and the declaration without the
default (`Parser.generics_parameters`). Whatever stands in angle brackets, the text that is kept of it is taken
apart into the parts that reading found (`Parser.generics_rejoined`).
-/

namespace Typestate

open Text (Single Joined isBlank normalize)

/-! ## Texts of parameters -/

section
variable {src : Source} {ts : List Token} {ps : List Piece}

/-- Plain tokens that keep their commas in brackets are a single text of a list. -/
theorem PlainPieces.single (h : PlainPieces src ts ps) (hne : ts ≠ []) (hts : Sealed [.comma] (ts.map Token.kind)) :
    Single (src.textOf ts) where
  whole := {
    filled := by
      rw [h.normalize_textOf, h.textOf]
      obtain ⟨tail, hreads⟩ := h.reads
      rwa [Ne, normalize_spell_eq_nil_iff hreads, h.eq_nil_iff]
    walks := fun previous hprevious => h.walks .comma hts.matched.level (hts.inside _ (by simp)) hprevious }
  normal := h.normalize_textOf

/-- The characters of what a parameter is called by. -/
theorem Lexeme.Written.isNameChar {kind : TokenKind} {text : List Char} (h : Lexeme.Written kind text)
    (hkind : kind = .lifetime ∨ kind.isName = true) : ∀ c ∈ text, Code.IsNameChar c := by
  have hword : ∀ {cs : List Char}, (∀ c ∈ cs, Identifier.isWordChar c = true) → ∀ c ∈ cs, Code.IsNameChar c := by
    intro cs hcs c hc
    refine ⟨Lexeme.isBlank_of_wordChar (hcs c hc), ?_, ?_⟩
    · rintro rfl
      exact absurd (hcs _ hc) (by decide)
    · rintro rfl
      exact absurd (hcs _ hc) (by decide)
  have hsign : ∀ {c : Char}, isBlank c = false → c ≠ ':' → c ≠ '=' → Code.IsNameChar c :=
    fun hblank hcolon hequals => ⟨hblank, hcolon, hequals⟩
  cases h with
  | lifetime hcs => exact List.forall_mem_cons.mpr ⟨hsign (by decide) (by decide) (by decide), hword hcs⟩
  | raw hcs =>
    exact List.forall_mem_cons.mpr ⟨hsign (by decide) (by decide) (by decide),
      List.forall_mem_cons.mpr ⟨hsign (by decide) (by decide) (by decide), hword hcs⟩⟩
  | word _ hcs => exact hword hcs
  | sign hpunctuation =>
    rcases hkind with rfl | hname
    · unfold TokenKind.ofPunctuation at hpunctuation
      split at hpunctuation <;> cases hpunctuation
    · rw [TokenKind.isName_ofPunctuation hpunctuation] at hname
      cases hname
  | _ => rcases hkind with hkind | hkind <;> cases hkind

/-- What stands behind the name of a parameter starts with a colon or an equals sign. -/
theorem head_textOf_brought {bounds default : List Token} (h : PlainPieces src (bounds ++ default) ps)
    (hbounds : Brought .colon [.comma, .equals] bounds) (hdefault : Brought .equals [.comma] default) :
    ∀ c ∈ (src.textOf (bounds ++ default)).toList.head?, c = ':' ∨ c = '=' := by
  have hnone : ∀ c ∈ (src.textOf []).toList.head?, c = ':' ∨ c = '=' := by rintro _ ⟨⟩
  cases hbounds with
  | none =>
    cases hdefault with
    | none => exact hnone
    | some ht =>
      obtain ⟨hwritten, -, gap, -, htext⟩ := h.textOf_cons
      rw [List.nil_append, htext, hwritten.eq_sign.2.1 ht]
      rintro _ ⟨⟩
      exact Or.inr rfl
  | some ht =>
    rw [List.cons_append] at h ⊢
    obtain ⟨hwritten, -, gap, -, htext⟩ := h.textOf_cons
    rw [htext, hwritten.eq_sign.2.2 ht]
    rintro _ ⟨⟩
    exact Or.inl rfl

section
variable {gap rest : List Char} (hgap : ∀ c ∈ gap, c = ' ') (hrest : ∀ c ∈ rest.head?, c = ':' ∨ c = '=')
include hgap hrest

/-- A text that starts with a name is that of a parameter with the name. -/
theorem PlainPieces.parameterName_eq {t : Token} (h : PlainPieces src [t] ps)
    (hkind : t.kind = .lifetime ∨ t.kind.isName = true) (hword : t.value ≠ constWord)
    (hnormal : normalize ((src.textOf [t]).toList ++ (gap ++ rest)) = (src.textOf [t]).toList ++ (gap ++ rest)) :
    Code.parameterName (String.ofList ((src.textOf [t]).toList ++ (gap ++ rest))) = t.value := by
  rw [h.textOf_singleton] at hnormal ⊢
  exact Code.parameterName_of_text (h.written_value.isNameChar hkind) h.written_value.ne_nil hgap hrest hword hnormal

theorem CalledBy.parameterName_eq {called : List Token} {name : Token} (h : CalledBy called name)
    (hplain : PlainPieces src called ps)
    (hnormal : normalize ((src.textOf called).toList ++ (gap ++ rest)) = (src.textOf called).toList ++ (gap ++ rest)) :
    Code.parameterName (String.ofList ((src.textOf called).toList ++ (gap ++ rest))) = name.value := by
  cases h with
  | lifetime ht =>
    refine hplain.parameterName_eq hgap hrest (Or.inl ht) (fun hsame => ?_) hnormal
    have hhead := hplain.written_value.head_lifetime ht
    rw [hsame] at hhead
    cases hhead
  | name ht hword => exact hplain.parameterName_eq hgap hrest (Or.inr ht) hword hnormal
  | @constant word _ hkind hword ht =>
    have hnames : (src.textOf ([word] ++ [name])).toList = word.value.toList ++ ' ' :: name.value.toList :=
      hplain.textOf_names (by rw [hkind]; rfl) ht
    obtain ⟨-, ⟨q, hq⟩, -⟩ := hplain.textOf_cons
    rw [List.singleton_append, hword] at hnames
    rw [hnames] at hnormal ⊢
    rw [List.append_assoc, List.cons_append] at hnormal ⊢
    exact Code.parameterName_of_const (hq.written_value.isNameChar (Or.inr ht)) hq.written_value.ne_nil hgap hrest
      hnormal

end

namespace WrittenParameter.WellFormed

variable {p : WrittenParameter}

/-- The declaration is the text in front of the default. -/
theorem withoutDefault_eq (h : p.WellFormed) (hplain : PlainPieces src p.tokens ps) :
    Code.withoutDefault (src.textOf p.tokens) = src.textOf p.declared := by
  unfold tokens at *
  obtain ⟨qs, rs, -, hqs, hrs⟩ := hplain.split
  obtain ⟨gap, hgap, htext⟩ := hplain.textOf_append
  have hsealed := h.sealed_declared
  obtain ⟨last, hwalk⟩ := hqs.walks .equals hsealed.matched.level (hsealed.inside _ (by simp)) (by decide : ' ' ≠ '-')
  have hhead : ∀ c ∈ (src.textOf p.default).toList.head?, c = '=' := by
    have hdefault := h.default
    generalize p.default = default at hdefault hrs
    cases hdefault with
    | none => rintro _ ⟨⟩
    | some ht =>
      obtain ⟨hwritten, -, gap, -, htext⟩ := hrs.textOf_cons
      rw [htext, hwritten.eq_sign.2.1 ht]
      rintro _ ⟨⟩
      rfl
  rw [← String.ofList_toList (s := src.textOf (p.declared ++ p.default)), htext]
  exact Code.withoutDefault_of_text hqs.normalize_textOf hwalk hgap hhead

theorem parameterName_eq (h : p.WellFormed) (hplain : PlainPieces src p.tokens ps) :
    Code.parameterName (src.textOf p.tokens) = p.name.value := by
  have hnormal := hplain.normalize_textOf
  obtain ⟨called, bounds, hdeclared, hcalled, hbounds⟩ := h.declared
  have htokens : p.tokens = called ++ (bounds ++ p.default) := by
    rw [tokens, hdeclared, List.append_assoc]
  rw [htokens] at hplain hnormal ⊢
  obtain ⟨qs, rs, -, hqs, hrs⟩ := hplain.split
  obtain ⟨gap, hgap, htext⟩ := hplain.textOf_append
  rw [htext] at hnormal
  rw [← String.ofList_toList (s := src.textOf (called ++ (bounds ++ p.default))), htext]
  exact hcalled.parameterName_eq hgap (head_textOf_brought hrs hbounds h.default) hqs hnormal

/-- The parameter, its declaration and its name are texts of a list. -/
theorem texts (h : p.WellFormed) (hplain : PlainPieces src p.tokens ps) :
    Single (src.textOf p.tokens) ∧ Single (src.textOf p.declared) ∧ Single p.name.value := by
  refine ⟨hplain.single h.tokens_ne_nil h.sealed_tokens, ?_, ?_⟩
  · obtain ⟨qs, rs, -, hqs, -⟩ := hplain.split
    exact hqs.single h.declared_ne_nil (h.sealed_declared.mono (by simp))
  · obtain ⟨called, bounds, hdeclared, hcalled, -⟩ := h.declared
    rw [tokens, hdeclared, List.append_assoc] at hplain
    obtain ⟨qs, rs, -, hqs, -⟩ := hplain.split
    obtain ⟨q, hq⟩ : ∃ q, PlainPieces src [p.name] q := by
      cases hcalled with
      | lifetime => exact ⟨qs, hqs⟩
      | name => exact ⟨qs, hqs⟩
      | constant => exact hqs.textOf_cons.2.1
    rw [← hq.textOf_singleton]
    exact hq.single (List.cons_ne_nil _ _) (sealed_name hcalled.kind (by decide))

end WrittenParameter.WellFormed

namespace ParameterList

variable {params : List WrittenParameter}

/-- All of the parameters are plain. -/
theorem forall_plain (h : ParameterList params ts) (hplain : PlainPieces src ts ps) :
    ∀ p ∈ params, p.WellFormed ∧ ∃ qs, PlainPieces src p.tokens qs := by
  induction h generalizing ps with
  | none => exact List.forall_mem_nil _
  | last hp => exact List.forall_mem_singleton.mpr ⟨hp, ps, hplain⟩
  | next hp _ _ ih =>
    obtain ⟨qs, rs, -, hqs, hrs⟩ := hplain.split
    obtain ⟨-, ⟨us, hus⟩, -⟩ := hrs.textOf_cons
    exact List.forall_mem_cons.mpr ⟨⟨hp, qs, hqs⟩, ih hus⟩

/-- The text of the list has the texts of the parameters in a row. -/
theorem joined (h : ParameterList params ts) (hplain : PlainPieces src ts ps) :
    Joined (params.map fun p => (src.textOf p.tokens).toList) (src.textOf ts).toList := by
  induction h generalizing ps with
  | none => exact .none (List.forall_mem_nil _)
  | @last p hp =>
    have hlast := Joined.last (hp.texts hplain).1.whole
    rwa [(hp.texts hplain).1.normal] at hlast
  | @next p params comma ts hp hcomma hrest ih =>
    obtain ⟨gap, hgap, htext⟩ := hplain.textOf_append
    obtain ⟨qs, rs, -, hqs, hrs⟩ := hplain.split
    obtain ⟨hwritten, ⟨us, hus⟩, gap', hgap', hbehind⟩ := hrs.textOf_cons
    have hsingle := (hp.texts hqs).1
    have hnext := Joined.next (hsingle.whole.append_spaces (by decide) hgap) ((ih hus).spaces hgap')
    rw [Text.normalize_append_blanks (Text.isBlank_of_spaces hgap), hsingle.normal] at hnext
    rw [htext, hbehind, hwritten.eq_sign.1 hcomma]
    simpa using hnext

/-- What is read of the list is made of the texts of the parameters. -/
theorem angled_eq (h : ParameterList params ts) (hplain : PlainPieces src ts ps) :
    (if ts = [] then "" else "<" ++ String.intercalate ", "
      (Text.splitOutsideBrackets (src.textOf ts) (· == ',')) ++ ">") =
        Code.angled (params.map fun p => src.textOf p.tokens) := by
  have htexts : (params.map fun p => (src.textOf p.tokens).toList).map String.ofList =
      params.map fun p => src.textOf p.tokens := by
    simp [Function.comp_def]
  rw [Text.splitOutsideBrackets_joined (h.joined hplain), htexts]
  cases h with
  | none => rfl
  | last hp => rw [if_neg hp.tokens_ne_nil]; rfl
  | next => rw [if_neg (by simp)]; rfl

end ParameterList

end

/-! ## Generated lists -/

theorem single_entryLifetime : Single Code.entryLifetime := by
  have heven : Lexeme.Even Code.entryLifetime.toList :=
    (Lexeme.even_of_wordChars (List.all_eq_true.mp (by decide +kernel))).cons (Or.inl rfl)
  refine ⟨⟨by decide, fun previous _ => ?_⟩, by decide⟩
  obtain ⟨last, hwalk, -⟩ := heven.walks (by decide) .comma
  exact ⟨last, hwalk⟩

/-- A list in which each parameter has a form of its own, behind the lifetime of a handle or not. -/
theorem lists_forms {src : Source} {params : List WrittenParameter} {own : List String}
    {form : String → String} {part : WrittenParameter → String}
    (hown : own = [] ∨ own = [Code.entryLifetime]) (hlifetime : form Code.entryLifetime = Code.entryLifetime)
    (hparams : ∀ p ∈ params, form (src.textOf p.tokens) = part p ∧ Single (part p)) :
    Code.Lists (Code.angled ((own ++ params.map fun p => src.textOf p.tokens).map form))
      (own ++ params.map part) := by
  have hfront : own.map form = own := by
    rcases hown with rfl | rfl
    · rfl
    · rw [List.map_singleton, hlifetime]
  have hback : (params.map fun p => src.textOf p.tokens).map form = params.map part := by
    rw [List.map_map]
    exact List.map_congr_left fun p hp => (hparams p hp).1
  rw [List.map_append, hfront, hback]
  refine Code.lists_angled fun text htext => ?_
  rcases List.mem_append.mp htext with hmem | hmem
  · rcases hown with rfl | rfl
    · cases hmem
    · rw [List.mem_singleton.mp hmem]
      exact single_entryLifetime
  · obtain ⟨p, hp, rfl⟩ := List.mem_map.mp hmem
    exact (hparams p hp).2

/-- **Parameters.** If the generics of a machine are a list of parameters, and there are neither strings nor
comments in them, whose delimiters have the only quotation marks and slashes, they are read as a text that lists
as many parameters. With the lifetime of a handle in front or without, the list that declares a type has each
parameter without its default, and the list that a use of the type has is that of the names. The three are
taken apart into as many texts, in order. -/
theorem Parser.generics_parameters {src : Source} {tokens inner after : List Token} {opening closing : Token}
    {params : List WrittenParameter} (htokens : src.tokenize = .ok tokens)
    (hplace : opening :: (inner ++ closing :: after) <:+ tokens.dropLast) (hopening : opening.kind = .lessThan)
    (hclosing : closing.kind = .greaterThan) (hparams : ParameterList params inner)
    (hquote : '"' ∉ (src.textOf inner).toList) (hslash : '/' ∉ (src.textOf inner).toList) :
    ∃ text,
      (∀ last, generics src ⟨opening :: (inner ++ closing :: after), last⟩ = .ok text ⟨after, last⟩) ∧
      Code.Lists text (params.map fun p => src.textOf p.tokens) ∧
      ∀ own, own = [] ∨ own = [Code.entryLifetime] →
        Code.Lists (Code.declaredParameters (own ++ params.map fun p => src.textOf p.tokens))
          (own ++ params.map fun p => src.textOf p.declared) ∧
        Code.Lists (Code.appliedParameters (own ++ params.map fun p => src.textOf p.tokens))
          (own ++ params.map fun p => p.name.value) := by
  have hinner : inner <:+: tokens.dropLast := by
    obtain ⟨before, hbefore⟩ := hplace
    exact ⟨before ++ [opening], closing :: after, by simp [← hbefore]⟩
  obtain ⟨ps, hps⟩ := src.exists_plainPieces htokens hinner hquote hslash
  have hall := hparams.forall_plain hps
  refine ⟨_, fun last => ?_, Code.lists_angled ?_, fun own hown => ⟨?_, ?_⟩⟩
  · have hread : Finds src ⟨opening :: (inner ++ closing :: after), last⟩ generics _ :=
      finds_generics hopening hclosing hparams.matched
    rw [hparams.angled_eq hps] at hread
    exact hread.eq_ok
  · intro text htext
    obtain ⟨p, hp, rfl⟩ := List.mem_map.mp htext
    obtain ⟨hformed, qs, hqs⟩ := hall p hp
    exact (hformed.texts hqs).1
  · refine lists_forms hown (by decide) fun p hp => ?_
    obtain ⟨hformed, qs, hqs⟩ := hall p hp
    exact ⟨hformed.withoutDefault_eq hqs, (hformed.texts hqs).2.1⟩
  · refine lists_forms hown (by decide) fun p hp => ?_
    obtain ⟨hformed, qs, hqs⟩ := hall p hp
    exact ⟨hformed.parameterName_eq hqs, (hformed.texts hqs).2.2⟩

/-- A lifetime, a constant, and a function with an equals sign in the brackets of its bounds. -/
def loom : Source := { text := "M<'a, const N: u8, F: Fn(A) -> B<C = D> = fn(A) -> B,> \x7b\x7d" }

def loomLifetime : WrittenParameter where
  name := lineToken .lifetime "'a" 2
  declared := [lineToken .lifetime "'a" 2]
  default := []

def loomConstant : WrittenParameter where
  name := lineToken .identifier "N" 12
  declared := [lineToken .identifier "const" 6, lineToken .identifier "N" 12, lineToken .colon ":" 13,
    lineToken .identifier "u8" 15]
  default := []

def loomFunction : WrittenParameter where
  name := lineToken .identifier "F" 19
  declared := [lineToken .identifier "F" 19, lineToken .colon ":" 20, lineToken .identifier "Fn" 22,
    lineToken .leftParen "(" 24, lineToken .identifier "A" 25, lineToken .rightParen ")" 26,
    lineToken .arrow "->" 28, lineToken .identifier "B" 31, lineToken .lessThan "<" 32,
    lineToken .identifier "C" 33, lineToken .equals "=" 35, lineToken .identifier "D" 37,
    lineToken .greaterThan ">" 38]
  default := [lineToken .equals "=" 40, lineToken .identifier "fn" 42, lineToken .leftParen "(" 44,
    lineToken .identifier "A" 45, lineToken .rightParen ")" 46, lineToken .arrow "->" 48,
    lineToken .identifier "B" 51]

theorem loom_parameters :
    let inner := loomLifetime.tokens ++ lineToken .comma "," 4 :: (loomConstant.tokens ++
      lineToken .comma "," 17 :: (loomFunction.tokens ++ [lineToken .comma "," 52]))
    let body := [lineToken .leftBrace "\x7b" 55, lineToken .rightBrace "\x7d" 56]
    let behind := lineToken .lessThan "<" 1 :: (inner ++ lineToken .greaterThan ">" 53 :: body)
    let mark := lineToken .endOfInput "" 57
    loom.tokenize = .ok (lineToken .identifier "M" 0 :: behind ++ [mark]) ∧
    ∃ text, Parser.generics loom ⟨behind, mark⟩ = .ok text ⟨body, mark⟩ ∧
      Code.Lists text ["'a", "const N: u8", "F: Fn(A) -> B<C = D> = fn(A) -> B"] ∧
      Code.declaredParameters ["'state", "'a", "const N: u8", "F: Fn(A) -> B<C = D> = fn(A) -> B"] =
        "<'state, 'a, const N: u8, F: Fn(A) -> B<C = D>>" ∧
      Code.appliedParameters ["'state", "'a", "const N: u8", "F: Fn(A) -> B<C = D> = fn(A) -> B"] =
        "<'state, 'a, N, F>" := by
  intro inner body behind mark
  have htokens : loom.tokenize = .ok (lineToken .identifier "M" 0 :: behind ++ [mark]) := by decide +kernel
  have hlifetime : loomLifetime.WellFormed := ⟨⟨_, [], rfl, .lifetime rfl, .none⟩, .none⟩
  have hconstant : loomConstant.WellFormed :=
    ⟨⟨_, _, rfl, .constant rfl rfl rfl, .some rfl (by decide +kernel)⟩, .none⟩
  have hfunction : loomFunction.WellFormed :=
    ⟨⟨_, _, rfl, .name rfl (by decide), .some rfl (by decide +kernel)⟩, .some rfl (by decide +kernel)⟩
  have hlist : ParameterList [loomLifetime, loomConstant, loomFunction] inner :=
    .next hlifetime rfl (.next hconstant rfl (.next hfunction rfl .none))
  obtain ⟨text, hread, htexts, hown⟩ := Parser.generics_parameters htokens
    ⟨[lineToken .identifier "M" 0], by rw [List.dropLast_concat]; rfl⟩ rfl rfl hlist (by decide +kernel)
    (by decide +kernel)
  have hsplit : ([loomLifetime, loomConstant, loomFunction].map fun p => loom.textOf p.tokens) =
      ["'a", "const N: u8", "F: Fn(A) -> B<C = D> = fn(A) -> B"] := by decide +kernel
  have hdeclared : ([loomLifetime, loomConstant, loomFunction].map fun p => loom.textOf p.declared) =
      ["'a", "const N: u8", "F: Fn(A) -> B<C = D>"] := by decide +kernel
  obtain ⟨hwritten, hnamed⟩ := hown [Code.entryLifetime] (Or.inr rfl)
  rw [hsplit] at htexts hwritten hnamed
  rw [hdeclared] at hwritten
  exact ⟨htokens, text, hread mark, htexts, hwritten.angled, hnamed.angled⟩

/-! ## Whatever is read -/

/-- The parameters in angle brackets at the front of a stream: the parts of the text between the brackets. -/
def TokenStream.parameters (src : Source) (s : TokenStream) : List String :=
  match s.ahead with
  | [] => []
  | opening :: inner =>
    if opening.kind = .lessThan then
      match Balanced.upTo [.greaterThan] 0 none inner with
      | .stopped taken _ => Text.splitOutsideBrackets (src.textOf taken) (· == ',')
      | _ => []
    else []

theorem Parser.proceeds_generics {src : Source} {s : TokenStream} (hs : s.Ended) :
    Proceeds src s generics fun text _ => Code.parametersOf text = .ok (s.parameters src) := by
  unfold generics
  refine proceeds_isNotAt (fun hother => from_pure ?_) fun hopen => ?_
  · have hnone : s.parameters src = [] := by
      rcases s with ⟨_ | ⟨t, ts⟩, last⟩
      · rfl
      · exact if_neg hother
    rw [hnone]
    rfl
  refine proceeds_advance hs (by rw [hopen]; nofun) fun s₁ h₁ hs₁ => ?_
  have hparams : s.parameters src = match Balanced.upTo [.greaterThan] 0 none s₁.ahead with
      | .stopped taken _ => Text.splitOutsideBrackets (src.textOf taken) (· == ',')
      | _ => [] := by
    unfold TokenStream.parameters
    rw [h₁.ahead]
    exact if_pos hopen
  refine proceeds_isAt_advance hs₁ nofun (fun closing s₂ h₂ _ hclosing => from_pure ?_) ?_
  · rw [hparams, h₂.ahead, Balanced.upTo]
    simp only [hclosing]
    rfl
  · refine (textUpTo_taken _ _).bind ?_
    rintro text s₂ ⟨inner, h₂, htext⟩
    refine proceeds_expect (h₂.moves.ended hs₁) nofun fun closing s₃ _ _ _ => from_pure ?_
    rw [hparams, h₂.stopped, Code.parametersOf_angled, htext, Text.splitOutsideBrackets_rejoined]

/-- **Parts.** Joining the parts of any text, with unbalanced brackets or not, and taking the result apart gives
the same parts. So the text that is kept of generic parameters is taken apart into those that were found. -/
theorem Parser.generics_rejoined :
    (∀ text : String,
      Text.splitOutsideBrackets (String.intercalate ", " (Text.splitOutsideBrackets text (· == ','))) (· == ',') =
        Text.splitOutsideBrackets text (· == ',')) ∧
    ∀ (src : Source) (s s' : TokenStream) (text : String), s.Ended → generics src s = .ok text s' →
      Code.parametersOf text = .ok (s.parameters src) :=
  ⟨Text.splitOutsideBrackets_rejoined, fun _ _ _ _ hs h => (proceeds_generics hs).of_ok h⟩

/-- A list with an empty place, and with brackets in a string and in a comment that hide a comma. -/
def looseList : Source := { text := "M<A, , B = \")\", /* < */ C> \x7b\x7d" }

def looseTokens : TokenStream where
  ahead := [lineToken .lessThan "<" 1, lineToken .identifier "A" 2, lineToken .comma "," 3,
    lineToken .comma "," 5, lineToken .identifier "B" 7, lineToken .equals "=" 9, ⟨.string, ")", 1, 12, 11, 14⟩,
    lineToken .comma "," 14, lineToken .identifier "C" 24, lineToken .greaterThan ">" 25,
    lineToken .leftBrace "\x7b" 27, lineToken .rightBrace "\x7d" 28]
  last := lineToken .endOfInput "" 29

theorem looseList_rejoined :
    (∃ name, looseList.tokenize = .ok (name :: looseTokens.ahead ++ [looseTokens.last])) ∧
    (∃ s', Parser.generics looseList looseTokens = .ok "<A, B = \")\", /* < */ C>" s') ∧
    looseTokens.parameters looseList = ["A", "B = \")\", /* < */ C"] ∧
    Code.parametersOf "<A, B = \")\", /* < */ C>" = .ok ["A", "B = \")\", /* < */ C"] := by
  have hread : Parser.generics looseList looseTokens = .ok "<A, B = \")\", /* < */ C>"
      { looseTokens with ahead := looseTokens.ahead.drop 10 } := by rfl
  have hfound : looseTokens.parameters looseList = ["A", "B = \")\", /* < */ C"] := by decide +kernel
  refine ⟨⟨lineToken .identifier "M" 0, by decide +kernel⟩, ⟨_, hread⟩, hfound, ?_⟩
  rw [← hfound]
  exact Parser.generics_rejoined.2 looseList looseTokens _ _ rfl hread

end Typestate
