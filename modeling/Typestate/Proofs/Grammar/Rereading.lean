import Mathlib.Data.List.Forall2
import Typestate.Proofs.Grammar.Capture
import Typestate.Proofs.Token.Parting

/-!
Reading the texts of a machine again. A payload type and an attribute are read as the tokens they come
from exactly if their pieces are kept: no string, no documentation has blanks that single spaces change,
and no comment goes on to the end of its line in front of another token. Generic parameters and where
predicates are read as theirs, but for the commas between, if in addition no comma stands in a string or
a comment and no minus in front of one (`Source.parse_rereads`).
-/

namespace Typestate

open Piece

/-- What comes of reading a document's texts again, given its tokens. -/
structure Document.Rereads (src : Source) (ts : List Token) (d : Document) : Prop where
  types : ∀ s ∈ d.statements, ∀ r ∈ s.refs, ∀ ty, r.ty = some ty →
    ∃ taken ps, TypeTokens ts r taken ∧ Fragment src taken ps ∧
      (ReadAs ty (taken.map Token.content) ↔ Kept ps)
  attrs : ∃ takens : List (List Token), d.attrs = takens.map src.textOf ∧ takens.flatten.Sublist ts ∧
    ∀ taken ∈ takens, AttributeTokens taken ∧ ∃ ps, Fragment src taken ps ∧
      (ReadAs (src.textOf taken) (taken.map Token.content) ↔ Kept ps)
  generics : d.generics = "" ∨ ∃ taken ps, GenericsTokens ts d.span taken ∧ Fragment src taken ps ∧
    (Listed ps → MinusFree ps → ∃ groups, Separated groups (taken.map Token.content) ∧
      ReadAs d.generics ((.lessThan, ['<']) ::
        (List.intercalate [(.comma, [','])] groups ++ [(.greaterThan, ['>'])])))
  predicates : d.predicates = [] ∨ ∃ taken ps, ClauseTokens ts d.span taken ∧ Fragment src taken ps ∧
    (Listed ps → ∃ groups, Separated groups (taken.map Token.content) ∧
      List.Forall₂ ReadAs d.predicates groups)

section
variable {src : Source} {taken : List Token} {ps : List Piece}

theorem Fragment.readAs_iff (h : Fragment src taken ps) (hne : taken ≠ []) :
    ReadAs (src.textOf taken) (taken.map Token.content) ↔ Kept ps := by
  obtain ⟨tail, hps⟩ := h.reads
  rw [readAs_iff_spells, h.textOf hne, String.toList_ofList, ← h.contents]
  exact spells_normalize_iff hps (Or.inl h.closed)

theorem Fragment.setGap_eq (h : Fragment src taken ps) : setGap [] ps = ps := by
  cases ps with
  | nil => rfl
  | cons p ps =>
    rcases p with ⟨gap, text, token⟩
    have hgap : gap = [] := h.flush _ rfl
    rw [hgap]
    rfl

/-- The pieces between the commas of a fragment's text. -/
theorem Fragment.exists_parts (h : Fragment src taken ps) (hne : taken ≠ []) (hlisted : Listed ps) :
    ∃ parts, Parted ps parts ∧ Separated ((filled parts).map Piece.contents) (taken.map Token.content) ∧
      Text.splitOutsideBrackets (src.textOf taken) (· == ',') =
        (filled parts).map fun part => String.ofList (Text.normalize (spell part)) := by
  obtain ⟨tail, hps⟩ := h.reads
  obtain ⟨parts, hparts, htexts⟩ := splitOutsideBrackets_spell hps h.setGap_eq hlisted
  refine ⟨parts, hparts, ?_, by rw [h.textOf hne, htexts]⟩
  rw [← h.contents]
  exact hparts.separated hps

theorem Fragment.readAs_generics (h : Fragment src taken ps) (hne : taken ≠ []) (hlisted : Listed ps)
    (hminus : MinusFree ps) : ∃ groups, Separated groups (taken.map Token.content) ∧
      ReadAs ("<" ++ String.intercalate ", "
          (Text.splitOutsideBrackets (src.textOf taken) (· == ',')) ++ ">")
        ((.lessThan, ['<']) ::
          (List.intercalate [(.comma, [','])] groups ++ [(.greaterThan, ['>'])])) := by
  obtain ⟨tail, hps⟩ := h.reads
  obtain ⟨parts, hparts, hseparated, htexts⟩ := h.exists_parts hne hlisted
  refine ⟨_, hseparated, ?_⟩
  rw [readAs_iff_spells, htexts, String.toList_append, String.toList_append, String.toList_intercalate,
    List.map_map]
  have hspells := spells_angled (hparts.listable hps hlisted hminus)
  simpa [Function.comp_def] using hspells

theorem Fragment.readAs_predicates (h : Fragment src taken ps) (hne : taken ≠ []) (hlisted : Listed ps) :
    ∃ groups, Separated groups (taken.map Token.content) ∧
      List.Forall₂ ReadAs (Text.splitOutsideBrackets (src.textOf taken) (· == ',')) groups := by
  obtain ⟨tail, hps⟩ := h.reads
  obtain ⟨parts, hparts, hseparated, htexts⟩ := h.exists_parts hne hlisted
  refine ⟨_, hseparated, ?_⟩
  rw [htexts, List.forall₂_map_left_iff, List.forall₂_map_right_iff, List.forall₂_same]
  intro part hpart
  obtain ⟨hwithin, tail', hreads⟩ := hparts.reads hps part (List.mem_of_mem_filter hpart)
  have hpart' := hlisted.of_isInfix hwithin
  rw [readAs_iff_spells, String.toList_ofList]
  exact (spells_normalize_iff hreads (Or.inr hpart'.line)).mpr hpart'.kept

end

/-! ## Places -/

theorem TypeTokens.isInfix {ts taken : List Token} {r : NodeRef} (h : TypeTokens ts r taken) :
    taken <:+: ts := by
  obtain ⟨before, name, colon, stop, after, rfl, -⟩ := h.place
  exact ⟨before ++ [name, colon], stop :: after, by simp⟩

theorem GenericsTokens.isInfix {ts taken : List Token} {span : Option Span}
    (h : GenericsTokens ts span taken) : taken <:+: ts := by
  obtain ⟨before, name, params, after, rfl, -, opening, closing, rfl, -⟩ := h.place
  exact ⟨before ++ [name, opening], closing :: after, by simp⟩

theorem ClauseTokens.isInfix {ts taken : List Token} {span : Option Span}
    (h : ClauseTokens ts span taken) : taken <:+: ts := by
  obtain ⟨before, name, params, word, brace, after, clause, rfl, -, -, -, rfl, -⟩ := h.place
  exact ⟨before ++ name :: (params ++ [word]), brace :: after, by simp⟩

/-- **Rereading.** Every text that a document keeps says the same tokens when it is read again, unless single spaces
change one of them. -/
theorem Source.parse_rereads {src : Source} {tokens : List Token} {d : Document}
    (htokens : src.tokenize = .ok tokens) (h : src.parse = .ok d) : d.Rereads src tokens.dropLast := by
  obtain ⟨htypes, ⟨takens, hattrs, hsublist, htakens⟩, hgenerics, hpredicates⟩ := parse_captured htokens h
  refine ⟨?_, ⟨takens, hattrs, hsublist, ?_⟩, ?_, ?_⟩
  · intro s hs r hr ty hty
    obtain ⟨taken, htaken, rfl⟩ := htypes s hs r hr ty hty
    obtain ⟨ps, hps⟩ := exists_fragment htokens htaken.isInfix htaken.nonempty
    exact ⟨taken, ps, htaken, hps, hps.readAs_iff htaken.nonempty⟩
  · intro taken htaken
    obtain ⟨hattribute, hwithin⟩ := htakens taken htaken
    have hne : taken ≠ [] := by
      obtain ⟨first, opening, body, rfl, -⟩ := hattribute.shape
      exact List.cons_ne_nil _ _
    obtain ⟨ps, hps⟩ := exists_fragment htokens hwithin hne
    exact ⟨hattribute, ps, hps, hps.readAs_iff hne⟩
  · refine hgenerics.imp_right ?_
    rintro ⟨taken, htaken, hgenerics⟩
    obtain ⟨ps, hps⟩ := exists_fragment htokens htaken.isInfix htaken.nonempty
    refine ⟨taken, ps, htaken, hps, fun hlisted hminus => ?_⟩
    rw [hgenerics]
    exact hps.readAs_generics htaken.nonempty hlisted hminus
  · refine hpredicates.imp_right ?_
    rintro ⟨taken, htaken, hpredicates⟩
    obtain ⟨ps, hps⟩ := exists_fragment htokens htaken.isInfix htaken.nonempty
    refine ⟨taken, ps, htaken, hps, fun hlisted => ?_⟩
    rw [hpredicates]
    exact hps.readAs_predicates htaken.nonempty hlisted

/-! ## Texts that are changed -/

/-- The text has tokens and holds a machine that together pass a check. -/
def Source.parsePasses (src : Source) (check : List Token → Document → Bool) : Bool :=
  match src.tokenize, src.parse with
  | .ok tokens, .ok d => check tokens d
  | _, _ => false

/-- What a check finds out about the tokens of a text and its machine is true of them. -/
theorem Source.exists_parse_of_check (src : Source) (check : List Token → Document → Bool)
    (h : src.parsePasses check = true) : ∃ tokens d, src.tokenize = .ok tokens ∧
      src.parse = .ok d ∧ check tokens d = true := by
  unfold parsePasses at h
  split at h
  · next tokens d htokens hparse => exact ⟨tokens, d, htokens, hparse, h⟩
  · cases h

/-- A store with all kinds of texts, in which blanks stand between tokens only. -/
def store : Source :=
  { text := "#[derive( Clone,Debug )]\nStore < K ,V, > where K : Ord , V: Clone, \x7b\n" ++
      "  Open : Vec < (K, V) >;\n  Open -> Shut: /* sealed */ Box<[K] >;\n\x7d" }

theorem store_rereads : ∃ tokens d, store.tokenize = .ok tokens ∧ store.parse = .ok d ∧
    d.Rereads store tokens.dropLast ∧ d.attrs = ["#[derive( Clone,Debug )]"] ∧
    d.generics = "<K, V>" ∧ d.predicates = ["K : Ord", "V: Clone"] := by
  obtain ⟨tokens, d, htokens, hparse, hcheck⟩ := store.exists_parse_of_check
    (fun _ d => d.attrs == ["#[derive( Clone,Debug )]"] && d.generics == "<K, V>" &&
      d.predicates == ["K : Ord", "V: Clone"]) (by decide +kernel)
  simp only [Bool.and_eq_true, beq_iff_eq] at hcheck
  obtain ⟨⟨hattrs, hgenerics⟩, hpredicates⟩ := hcheck
  exact ⟨tokens, d, htokens, hparse, Source.parse_rereads htokens hparse, hattrs, hgenerics, hpredicates⟩

/-- An attribute with two spaces in a string. -/
def wideNote : Source := { text := "#[note = \"a  b\"]\nM \x7b A -> B; \x7d" }

/-- A type with a comment in it that goes on to the end of its line. -/
def brokenType : Source := { text := "A -> B: Vec< // bytes\n  u8>;" }

theorem wideNote_brokenType_reread :
    (∃ tokens d, wideNote.tokenize = .ok tokens ∧ wideNote.parse = .ok d ∧
      d.attrs = ["#[note = \"a b\"]"] ∧ d.attrs = [wideNote.textOf (tokens.take 6)] ∧
      ¬ ReadAs "#[note = \"a b\"]" ((tokens.take 6).map Token.content)) ∧
    ∃ tokens d, brokenType.tokenize = .ok tokens ∧ brokenType.parse = .ok d ∧
      (d.statements.flatMap Statement.refs).map NodeRef.ty = [none, some "Vec< // bytes u8>"] ∧
      brokenType.textOf ((tokens.drop 4).take 4) = "Vec< // bytes u8>" ∧
      ¬ ReadAs "Vec< // bytes u8>" (((tokens.drop 4).take 4).map Token.content) := by
  constructor
  · obtain ⟨tokens, d, htokens, hparse, hcheck⟩ := wideNote.exists_parse_of_check
      (fun tokens d => d.attrs == ["#[note = \"a b\"]"] && d.attrs == [wideNote.textOf (tokens.take 6)] &&
        decide (¬ ReadAs "#[note = \"a b\"]" ((tokens.take 6).map Token.content)))
      (by decide +kernel)
    simp only [Bool.and_eq_true, beq_iff_eq, decide_eq_true_eq] at hcheck
    exact ⟨tokens, d, htokens, hparse, hcheck.1.1, hcheck.1.2, hcheck.2⟩
  · obtain ⟨tokens, d, htokens, hparse, hcheck⟩ := brokenType.exists_parse_of_check
      (fun tokens d =>
        (d.statements.flatMap Statement.refs).map NodeRef.ty == [none, some "Vec< // bytes u8>"] &&
        brokenType.textOf ((tokens.drop 4).take 4) == "Vec< // bytes u8>" &&
        decide (¬ ReadAs "Vec< // bytes u8>" (((tokens.drop 4).take 4).map Token.content)))
      (by decide +kernel)
    simp only [Bool.and_eq_true, beq_iff_eq, decide_eq_true_eq] at hcheck
    exact ⟨tokens, d, htokens, hparse, hcheck.1.1, hcheck.1.2, hcheck.2⟩

end Typestate
