import Typestate.Code.Item
import Typestate.Proofs.Grammar.Origin
import Typestate.Proofs.Grammar.RoundTrip
import Typestate.Proofs.Token.Cover

/-!
Documentation that was read, written as comments and read again. A fragment is read back as it is exactly if
it neither begins with a slash, which would make the comment an ordinary one, nor ends with a carriage
return, which would be taken for a part of the line end (`Source.docs_docComments`).
-/

namespace Typestate

open Piece

/-- The fragments can be the documentation in front of a statement or of a machine. -/
def DocsRead (fragments : List String) : Prop :=
  ∃ src s s', Parser.docs src s = .ok fragments s' ∨ ∃ p, Parser.preamble src s = .ok p s' ∧ p.docs = fragments

theorem DocsRead.oneLine {fragments : List String} (h : DocsRead fragments) : OneLine fragments := by
  have hall : ∀ s : TokenStream, s.All fun _ => True := fun s => ⟨fun _ _ => trivial, trivial⟩
  obtain ⟨src, s, s', hdocs | ⟨p, hpreamble, rfl⟩⟩ := h
  · exact (Parser.ensures_docs.of_ok (hall s) hdocs).2
  · exact (Parser.ensures_preamble.of_ok (hall s) hpreamble).2.docs

namespace Code

/-! ## Comments -/

/-- What a fragment is read as when it stands behind three slashes. -/
def rereadDoc (fragment : String) : Option String :=
  if fragment.toList.head? = some '/' then none
  else some (String.ofList (Lexeme.dropReturns fragment.toList))

/-- The comment of a fragment, as it is read. -/
def docPiece (gap : List Char) (fragment : String) : Piece where
  gap
  text := '/' :: '/' :: '/' :: fragment.toList
  token := (rereadDoc fragment).map fun text => (.doc, text.toList)

/-- The comments of some fragments on lines of their own. -/
def docPieces (indent : List Char) : List String → List Piece
  | [] => []
  | f :: fs => docPiece indent f :: fs.map (docPiece ('\n' :: indent))

variable {fragment : String} {fragments : List String} {indent : List Char}

theorem readsBefore_docPiece {gap after : List Char} (hgap : ∀ c ∈ gap, Lexeme.isSpace c = true)
    (hline : '\n' ∉ fragment.toList) (hafter : ∀ d ∈ after.head?, d = '\n') :
    (docPiece gap fragment).ReadsBefore after := by
  have hnewline : '\n' ∉ '/' :: fragment.toList := by simpa using hline
  have hread := Lexeme.first_line hnewline
  have htoken : (if Lexeme.isDocLine ('/' :: '/' :: '/' :: fragment.toList) then
      some (.doc, Lexeme.dropReturns fragment.toList) else none) = (docPiece gap fragment).token := by
    rw [Lexeme.isDocLine_slash]
    by_cases hslash : fragment.toList.head? = some '/' <;> simp [docPiece, rereadDoc, hslash]
  rw [List.drop_succ_cons, List.drop_zero, htoken] at hread
  have hwhole : Lexeme.first '/' ('/' :: '/' :: fragment.toList ++ []) =
      .ok ⟨(docPiece gap fragment).token, ('/' :: '/' :: fragment.toList).length⟩ := by
    rwa [List.append_nil]
  refine ⟨hgap, '/', _, rfl, (Lexeme.first_of_apart hwhole).2 after ?_⟩
  cases after with
  | nil => exact .nil _
  | cons d after =>
    obtain rfl := hafter d rfl
    exact (Word.lexeme _ (.doc, [])).apart_newline after

theorem reads_map_docPiece (hindent : ∀ c ∈ indent, Lexeme.isSpace c = true) (h : OneLine fragments) :
    Reads (fragments.map (docPiece ('\n' :: indent))) [] ∧
      ∀ d ∈ (spell (fragments.map (docPiece ('\n' :: indent)))).head?, d = '\n' := by
  induction fragments with
  | nil => exact ⟨trivial, nofun⟩
  | cons f fs ih =>
    obtain ⟨hf, hfs⟩ := List.forall_mem_cons.mp h
    obtain ⟨hreads, hhead⟩ := ih hfs
    refine ⟨⟨readsBefore_docPiece (List.forall_mem_cons.mpr ⟨rfl, hindent⟩) hf ?_, hreads⟩, ?_⟩
    · rwa [List.append_nil]
    · rintro d ⟨⟩
      rfl

theorem reads_docPieces (hindent : ∀ c ∈ indent, Lexeme.isSpace c = true) (h : OneLine fragments) :
    Reads (docPieces indent fragments) [] := by
  cases fragments with
  | nil => trivial
  | cons f fs =>
    obtain ⟨hf, hfs⟩ := List.forall_mem_cons.mp h
    obtain ⟨hreads, hhead⟩ := reads_map_docPiece hindent hfs
    refine ⟨readsBefore_docPiece hindent hf ?_, hreads⟩
    rwa [List.append_nil]

theorem toList_docComment (hline : '\n' ∉ fragment.toList) :
    (docComment (String.ofList indent) fragment).toList =
      indent ++ '/' :: '/' :: '/' :: fragment.toList := by
  unfold docComment
  rw [if_neg (by simpa using hline)]
  simp [String.toList_append]

theorem spell_docPieces (h : OneLine fragments) : spell (docPieces indent fragments) =
    (Text.unlines (docComments fragments (String.ofList indent))).toList := by
  have hcomments : ∀ fs, OneLine fs → (docComments fs (String.ofList indent)).map String.toList =
      fs.map fun f => indent ++ '/' :: '/' :: '/' :: f.toList := fun fs hfs => by
    unfold docComments
    rw [List.map_map]
    exact List.map_congr_left fun f hf => toList_docComment (hfs f hf)
  rw [Text.unlines, String.toList_intercalate, hcomments fragments h]
  cases fragments with
  | nil => rfl
  | cons f fs =>
    rw [List.map_cons, intercalate_cons_eq_flatMap, List.flatMap_map, docPieces, spell_cons, docPiece,
      List.append_assoc]
    congr 2
    rw [spell, List.flatMap_map]
    rfl

theorem contents_docPieces : contents (docPieces indent fragments) =
    (fragments.filterMap rereadDoc).map fun text => (.doc, text.toList) := by
  have hmap : ∀ (gap : List Char) (fs : List String), contents (fs.map (docPiece gap)) =
      (fs.filterMap rereadDoc).map fun text => (.doc, text.toList) := fun gap fs => by
    unfold contents
    rw [List.filterMap_map, List.map_filterMap]
    rfl
  cases fragments with
  | nil => rfl
  | cons f fs =>
    rw [docPieces, contents_cons, hmap, List.filterMap_cons]
    cases hread : rereadDoc f <;> simp [docPiece, hread]

/-! ## Reading back -/

theorem rereadDoc_eq_some_iff (hline : '\n' ∉ fragment.toList) :
    rereadDoc fragment = some fragment ↔ LineDoc fragment := by
  unfold rereadDoc
  constructor
  · intro hread
    split at hread
    · cases hread
    · next hslash =>
      have hsame : Lexeme.dropReturns fragment.toList = fragment.toList := by
        rw [← String.toList_ofList (l := Lexeme.dropReturns fragment.toList), Option.some.inj hread]
      exact ⟨hline, hslash, hsame ▸ (Lexeme.exists_returns fragment.toList).1⟩
  · intro h
    rw [if_neg h.slash, dropReturns_of_last, String.ofList_toList]
    rintro d hd rfl
    exact h.returns hd

/-- A list stays the same if nothing in it is dropped or changed. -/
theorem filterMap_eq_self_iff {α : Type} {f : α → Option α} {l : List α} :
    l.filterMap f = l ↔ ∀ a ∈ l, f a = some a := by
  induction l with
  | nil => simp
  | cons a l ih =>
    rw [List.filterMap_cons, List.forall_mem_cons, ← ih]
    cases hfa : f a with
    | none =>
      refine ⟨fun hall => ?_, fun hall => nomatch hall.1⟩
      have hlength : (a :: l).length ≤ l.length := hall ▸ List.length_filterMap_le f l
      rw [List.length_cons] at hlength
      omega
    | some b => simp

theorem oneLine_filterMap (h : OneLine fragments) : OneLine (fragments.filterMap rereadDoc) := by
  intro text htext
  obtain ⟨f, hf, hread⟩ := List.mem_filterMap.mp htext
  unfold rereadDoc at hread
  split at hread
  · cases hread
  · cases hread
    rw [String.toList_ofList]
    intro hmem
    obtain ⟨n, hreturns⟩ := (Lexeme.exists_returns f.toList).2
    refine h f hf ?_
    rw [hreturns]
    exact List.mem_append_left _ hmem

end Code

/-- The documentation that a text consists of. -/
def Source.docs (src : Source) : Except ParseError (List String) := do
  Parser.docs.run src (← src.tokenize)

/-- A text in which documentation is written as comments, with some spaces in front of each. -/
def Source.ofDocs (fragments : List String) (indent : Nat) : Source :=
  { text := Text.unlines (Code.docComments fragments (String.ofList (List.replicate indent ' '))) }

/-- **Comments.** Every fragment of documentation that can be read is one line. Written as comments and read
again, documentation loses the fragments that begin with a slash and the carriage returns at the ends of the
others, and nothing else; so it stays the same exactly if every fragment can stand behind three slashes. -/
theorem Source.docs_docComments {fragments : List String} (h : DocsRead fragments) (indent : Nat) :
    OneLine fragments ∧
    (ofDocs fragments indent).docs = .ok (fragments.filterMap Code.rereadDoc) ∧
    ((ofDocs fragments indent).docs = .ok fragments ↔ ∀ f ∈ fragments, LineDoc f) := by
  have hlines := h.oneLine
  have hindent : ∀ c ∈ List.replicate indent ' ', Lexeme.isSpace c = true := fun c hc => by
    rw [(List.mem_replicate.mp hc).2]
    rfl
  have htext : (ofDocs fragments indent).text.toList =
      spell (Code.docPieces (List.replicate indent ' ') fragments) ++ [] := by
    rw [List.append_nil, Code.spell_docPieces hlines]
    rfl
  obtain ⟨mark, hmark, htokens⟩ := tokenize_of_reads _ (Code.reads_docPieces hindent hlines)
    (List.forall_mem_nil _) htext
  have hcontents := (contents_placed (Cursor.start (ofDocs fragments indent).text)
    (Code.docPieces (List.replicate indent ' ') fragments)).trans Code.contents_docPieces
  have hend : (⟨[], mark⟩ : TokenStream).current.kind = .endOfInput := hmark
  have hfinds : Parser.Finds (ofDocs fragments indent) ⟨_ ++ [], mark⟩ Parser.docs _ :=
    Parser.finds_docs hcontents (Code.oneLine_filterMap hlines) (hend ▸ nofun) (hend ▸ nofun)
  rw [List.append_nil] at hfinds
  obtain ⟨found, -, hrun, rfl, -⟩ := hfinds.exists_run
  have hdocs : (ofDocs fragments indent).docs = .ok (fragments.filterMap Code.rereadDoc) := by
    rw [docs, htokens]
    exact hrun
  refine ⟨hlines, hdocs, ?_⟩
  rw [hdocs, Except.ok.injEq, Code.filterMap_eq_self_iff]
  exact forall₂_congr fun f hf => Code.rereadDoc_eq_some_iff (hlines f hf)

theorem docsRead_of_docs (src : Source) {fragments : List String} (h : src.docs = .ok fragments) :
    DocsRead fragments := by
  unfold Source.docs at h
  obtain ⟨tokens, -, hrun⟩ := Run.except_bind_eq_ok_iff.mp h
  unfold Parser.run at hrun
  split at hrun
  · next hdocs =>
    cases hrun
    exact ⟨_, _, _, Or.inl hdocs⟩
  · cases hrun

/-- Documentation in three forms in front of a statement. -/
def noted : Source := { text := "/// To.\n/**  fro/*.*/ */\n#[doc = \"/b\\nc\\r\"]\nA -> B;" }

theorem noted_docComments : DocsRead [" To.", "  fro/*.*/ ", "/b", "c\r"] ∧
    (Source.ofDocs [" To.", "  fro/*.*/ ", "/b", "c\r"] 4).docs = .ok [" To.", "  fro/*.*/ ", "c"] := by
  have hread : DocsRead [" To.", "  fro/*.*/ ", "/b", "c\r"] :=
    docsRead_of_docs noted (by decide +kernel)
  exact ⟨hread, (Source.docs_docComments hread 4).2.1⟩

/-- A slash at the start of a fragment makes the comment an ordinary one. -/
theorem slash_docComments : ¬∀ fragments, DocsRead fragments →
    (Source.ofDocs fragments 0).docs = .ok fragments := by
  intro hall
  have hread : DocsRead ["/x"] :=
    docsRead_of_docs { text := "#[doc = \"/x\"]" } (by decide +kernel)
  have hlost : (Source.ofDocs ["/x"] 0).docs = .ok [] := by decide +kernel
  have hsame := hlost.symm.trans (hall _ hread)
  cases hsame

end Typestate
