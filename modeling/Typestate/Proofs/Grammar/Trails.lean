import Typestate.Proofs.Grammar.Options
import Typestate.Proofs.Grammar.RoundTrip
import Typestate.Proofs.NodeName

/-!
Chains of plain names as the machine language reads them. A machine that consists of such chains, and of
single names, is read if and only if all names are canonical, and then it has a statement for each of them
(`Source.parse_trails`).
-/

namespace Typestate

/-! ## Names -/

/-- The words that mean something by themselves in a digraph. -/
def digraphWords : List String := ["node", "edge", "graph", "digraph", "subgraph", "strict"]

/-- An ASCII identifier without a marker that is no word of digraphs in any letter case. -/
@[mk_iff]
structure Identifier.IsPlain (name : String) : Prop where
  start : name.toList.head?.any isPlainStart = true
  chars : ∀ c ∈ name.toList, isPlainChar c = true
  unreserved : name.toLower ∉ digraphWords

instance (name : String) : Decidable (Identifier.IsPlain name) :=
  have : Decidable (∀ c ∈ name.toList, Identifier.isPlainChar c = true) := List.decidableBAll _ _
  decidable_of_iff _ (Identifier.isPlain_iff name).symm

/-- A name that is written alike in both languages. -/
structure PlainName where
  text : String
  isPlain : Identifier.IsPlain text

namespace PlainName

open Identifier

/-- The name is its own canonical spelling. -/
def IsCanonical (n : PlainName) : Prop := canonical n.text = .ok n.text

instance (n : PlainName) : Decidable n.IsCanonical :=
  inferInstanceAs (Decidable (canonical n.text = .ok n.text))

theorem exists_cons (n : PlainName) : ∃ c more, n.text.toList = c :: more ∧ isPlainStart c = true ∧
    ∀ d ∈ c :: more, isPlainChar d = true := by
  obtain ⟨start, chars, -⟩ := n.isPlain
  cases hn : n.text.toList with
  | nil =>
    rw [hn] at start
    cases start
  | cons c more =>
    rw [hn] at start chars
    exact ⟨c, more, rfl, start, chars⟩

theorem isRaw_eq_false (n : PlainName) : isRaw n.text = false := by
  apply not_raw_of_not_mem
  intro hmem
  exact absurd (n.isPlain.chars '#' hmem) (by decide)

/-- A plain name is its own canonical spelling or has none. -/
theorem isCanonical_or (n : PlainName) : n.IsCanonical ∨ ∃ cause, canonical n.text = .error cause :=
  canonical_of_not_raw n.isRaw_eq_false

/-- A canonical name is no keyword. -/
theorem IsCanonical.ofWord {n : PlainName} (h : n.IsCanonical) :
    TokenKind.ofWord n.text.toList = .identifier := by
  have hkeyword : n.text ∉ keywords := ((canonical_eq_self_iff n.text).mp h).1
  have hother : ∀ word ∈ keywords, n.text.toList ≠ word.toList := by
    intro word hword heq
    exact hkeyword (String.toList_inj.mp heq ▸ hword)
  have hpub : n.text.toList ≠ ['p', 'u', 'b'] := hother "pub" (by decide)
  have hwhere : n.text.toList ≠ ['w', 'h', 'e', 'r', 'e'] := hother "where" (by decide)
  have htrue : n.text.toList ≠ ['t', 'r', 'u', 'e'] := hother "true" (by decide)
  have hfalse : n.text.toList ≠ ['f', 'a', 'l', 's', 'e'] := hother "false" (by decide)
  simp [TokenKind.ofWord, hpub, hwhere, htrue, hfalse]

end PlainName

open Word (method arrow semicolon leftBrace rightBrace)

theorem PlainName.legible (n : PlainName) : (method n.text).Legible := by
  obtain ⟨c, more, hn, hstart, hchars⟩ := n.exists_cons
  have hletter : 65 ≤ c.toNat := Identifier.le_toNat_of_isPlainStart hstart
  have hdigit : Unicode.isDigit c = false := by
    have hascii := Identifier.toNat_lt_of_isPlainChar (hchars c (List.mem_cons_self ..))
    have hnot : ¬ c.toNat ≤ 57 := by omega
    simpa [Unicode.isDigit, hascii, Char.isDigit, UInt32.le_iff_toNat_le] using fun _ => hnot
  have hmark : more.head? ≠ some '#' := by
    intro hmore
    exact absurd (hchars '#' (List.mem_cons_of_mem _ (List.mem_of_head? hmore))) (by decide)
  have hword : Lexeme.word (c :: more) = c :: more :=
    List.takeWhile_eq_self_iff.mpr fun d hd => Identifier.isWordChar_of_isPlainChar (hchars d hd)
  have hother : ∀ d : Char, d.toNat < 65 → c ≠ d := by
    rintro d hd rfl
    omega
  refine ⟨c, more, hn, ?_⟩
  rw [Lexeme.first_other (hother '/' (by decide)) (hother '"' (by decide)) (hother '\'' (by decide)),
    hdigit, if_neg Bool.false_ne_true, if_neg fun h => hmark h.2.1,
    if_pos (Identifier.isWordStart_of_isPlainStart hstart), hword, hn]
  rfl

/-! ## Trails -/

/-- A name, or several in a row. -/
structure Trail where
  first : PlainName
  more : List PlainName

namespace Trail

def names (t : Trail) : List PlainName := t.first :: t.more

/-- An arrow and a name, for each of the names. -/
def steps (names : List PlainName) : List Word := names.flatMap fun n => [arrow, method n.text]

/-- The names with arrows between, and a semicolon behind the last. -/
def words (t : Trail) : List Word := method t.first.text :: (steps t.more ++ [semicolon])

/-- What the trail says in the machine language: a node, or a chain of nodes. -/
def statement (t : Trail) : Statement :=
  match t.more with
  | [] => .node { name := t.first.text }
  | more => .chain {
      first := [{ name := t.first.text }]
      rest := more.map fun n => ({}, [{ name := n.text }]) }

def IsCanonical (t : Trail) : Prop := ∀ n ∈ t.names, n.IsCanonical

end Trail

theorem Trail.legible_words (t : Trail) : ∀ w ∈ t.words, w.Legible := by
  have hmore : ∀ w ∈ Trail.steps t.more, w.Legible := by
    intro w hw
    obtain ⟨n, -, hw⟩ := List.mem_flatMap.mp hw
    rcases List.mem_pair.mp hw with rfl | rfl
    · exact Word.legible_arrow
    · exact n.legible
  simp only [Trail.words, List.forall_mem_cons, List.forall_mem_append]
  exact ⟨t.first.legible, hmore, Word.legible_mark rfl, nofun⟩

/-! ## Reading trails -/

namespace Parser

variable {may : ParseCause → Prop} {src : Source} {rest toks : List Token} {last : Token}

/-- A name that is taken is canonical. -/
theorem from_nodeRef {n : PlainName} {t : Token} (lines : List String)
    (ht : t.content = (.ofWord n.text.toList, n.text.toList)) (hmay : ¬ n.IsCanonical → ∀ cause, may cause)
    (hcolon : (⟨rest, last⟩ : TokenStream).current.kind ≠ .colon) :
    From may src ⟨t :: rest, last⟩ (nodeRef lines) fun r s' =>
      (r.withoutSpan = plainRef lines n.text ∧ n.IsCanonical) ∧ s' = ⟨rest, last⟩ := by
  by_cases hn : n.IsCanonical
  · rw [hn.ofWord] at ht
    refine (finds_nodeRef_bare ht hn hcolon).allowing.weaken ?_
    rintro r _ ⟨hr, rfl⟩
    exact ⟨⟨hr, hn⟩, rfl⟩
  · obtain ⟨cause, hcause⟩ := n.isCanonical_or.resolve_left hn
    unfold nodeRef
    refine from_current (from_ite (fun _ => from_fail_bind (hmay hn _)) fun _ => finds_advance ?_)
    have hread : Identifier.canonical (TokenStream.mk (t :: rest) last).current.value = .error cause :=
      (congrArg Identifier.canonical (value_of_content ht)).trans hcause
    rw [hread]
    exact from_fail (hmay hn _)

theorem from_group {n : PlainName} {t : Token} (lines : List String)
    (ht : t.content = (.ofWord n.text.toList, n.text.toList)) (hmay : ¬ n.IsCanonical → ∀ cause, may cause)
    (hstop : (⟨rest, last⟩ : TokenStream).current.kind ∈ typeStops) :
    From may src ⟨t :: rest, last⟩ (group lines) fun g s' =>
      (g.map NodeRef.withoutSpan = [plainRef lines n.text] ∧ n.IsCanonical) ∧ s' = ⟨rest, last⟩ := by
  obtain ⟨hcolon, hampersand⟩ := ne_of_mem_typeStops hstop
  unfold group
  refine (from_nodeRef lines ht hmay hcolon).bind ?_
  rintro r _ ⟨⟨hr, hn⟩, rfl⟩
  exact from_rounds_step (finds_isNotAt hampersand (from_pure ⟨⟨congrArg (fun r => [r]) hr, hn⟩, rfl⟩))

/-- Behind a name of a trail stands an arrow or the semicolon. -/
theorem current_kind_trail {names : List PlainName} {stop : Token}
    (htoks : toks.map Token.content = (Trail.steps names).flatMap Word.contents) (hstop : stop.kind = .semicolon) :
    (⟨toks ++ stop :: rest, last⟩ : TokenStream).current.kind ∈ typeStops := by
  cases names with
  | nil =>
    rw [List.map_eq_nil_iff.mp htoks]
    change stop.kind ∈ typeStops
    rw [hstop]
    decide
  | cons n names =>
    obtain ⟨t, toks, rfl, ht, -⟩ := List.map_eq_cons_iff.mp htoks
    change t.kind ∈ typeStops
    rw [kind_of_content ht]
    decide

theorem from_chainRest {names : List PlainName} {stop : Token}
    (htoks : toks.map Token.content = (Trail.steps names).flatMap Word.contents)
    (hmay : ∀ n ∈ names, ¬ n.IsCanonical → ∀ cause, may cause) (hstop : stop.kind = .semicolon) :
    From may src ⟨toks ++ stop :: rest, last⟩ chainRest fun found s' =>
      (found.map stepWithoutSpans = names.map (fun n => ({}, [{ name := n.text }])) ∧
        ∀ n ∈ names, n.IsCanonical) ∧ s' = ⟨stop :: rest, last⟩ := by
  unfold chainRest
  refine from_items ⟨stop :: rest, last⟩ stepWithoutSpans _ PlainName.IsCanonical
    (fun names s => ∃ toks, toks.map Token.content = (Trail.steps names).flatMap Word.contents ∧
      (∀ n ∈ names, ¬ n.IsCanonical → ∀ cause, may cause) ∧ s = ⟨toks ++ stop :: rest, last⟩)
    ⟨toks, htoks, hmay, rfl⟩ ?_ ?_ fun found hfound hnames => ⟨⟨hfound, hnames⟩, rfl⟩
  · rintro acc _ ⟨toks, htoks, -, rfl⟩
    rw [List.map_eq_nil_iff.mp htoks]
    exact finds_isAt hstop (from_pure ⟨rfl, rfl⟩)
  · rintro acc n names _ ⟨toks, htoks, hmay, rfl⟩
    obtain ⟨hfirst, hmay⟩ := List.forall_mem_cons.mp hmay
    obtain ⟨head, toks, rfl, hhead, htoks⟩ := List.map_eq_cons_iff.mp htoks
    obtain ⟨t, toks, rfl, ht, htoks⟩ := List.map_eq_cons_iff.mp htoks
    refine finds_isNotAt (current_ne (kind_of_content hhead) nofun) ?_
    have harrow : From may src ⟨head :: t :: (toks ++ stop :: rest), last⟩ arrow fun a s' =>
        a.withoutSpan = {} ∧ s' = ⟨t :: (toks ++ stop :: rest), last⟩ :=
      (@finds_arrow _ _ _ _ _ [head] .plain trivial (congrArg (fun c => [c]) hhead)).allowing
    refine harrow.bind ?_
    rintro a _ ⟨ha, rfl⟩
    refine from_current ((from_group [] ht hfirst (current_kind_trail htoks hstop)).bind ?_)
    rintro g _ ⟨⟨hg, hn⟩, rfl⟩
    have hmany : NodeGroup.isMany g = false := by
      have hlength : g.length = 1 := by simpa using congrArg List.length hg
      simp [NodeGroup.isMany, hlength]
    refine from_ite (fun hrefused => ?_) fun _ =>
      from_pure ⟨(a, g), rfl, ⟨Prod.ext ha hg, hn⟩, ?_, toks, htoks, hmay, rfl⟩
    · rw [hmany, Bool.and_false] at hrefused
      cases hrefused
    · simp only [List.length_append, List.length_cons]
      omega

theorem kind_ne_of_word {t : Token} {w : List Char} (ht : t.content = (.ofWord w, w)) {k : TokenKind}
    (hk : k.isName = false) : t.kind ≠ k := by
  rintro rfl
  rw [kind_of_content ht, TokenKind.isName_ofWord] at hk
  cases hk

/-- The tokens of a trail. -/
theorem exists_trailTokens {t : Trail} (htoks : toks.map Token.content = t.words.flatMap Word.contents) :
    ∃ head said stop, toks = head :: (said ++ [stop]) ∧
      head.content = (.ofWord t.first.text.toList, t.first.text.toList) ∧
      said.map Token.content = (Trail.steps t.more).flatMap Word.contents ∧ stop.kind = .semicolon := by
  have hcontents : t.words.flatMap Word.contents = (.ofWord t.first.text.toList, t.first.text.toList) ::
      ((Trail.steps t.more).flatMap Word.contents ++ [(.semicolon, [';'])]) := by
    rw [Trail.words, List.flatMap_cons, List.flatMap_append]
    rfl
  rw [hcontents] at htoks
  obtain ⟨head, toks, rfl, hhead, htoks⟩ := List.map_eq_cons_iff.mp htoks
  obtain ⟨said, stops, rfl, hsaid, hstops⟩ := List.map_eq_append_iff.mp htoks
  obtain ⟨stop, rfl, hstop⟩ := List.map_eq_singleton_iff.mp hstops
  exact ⟨head, said, stop, rfl, hhead, hsaid, kind_of_content hstop⟩

theorem from_trail {t : Trail} (htoks : toks.map Token.content = t.words.flatMap Word.contents)
    (hmay : ∀ n ∈ t.names, ¬ n.IsCanonical → ∀ cause, may cause) :
    From may src ⟨toks ++ rest, last⟩ statement fun found s' =>
      (found.withoutSpans = t.statement ∧ t.IsCanonical) ∧ s' = ⟨rest, last⟩ := by
  obtain ⟨head, said, stop, rfl, hhead, hsaid, hstop⟩ := exists_trailTokens htoks
  obtain ⟨first, more⟩ := t
  obtain ⟨hfirst, hmore⟩ := List.forall_mem_cons.mp hmay
  have hdocs : From may src ⟨head :: (said ++ stop :: rest), last⟩ docs fun lines s' =>
      lines = [] ∧ s' = ⟨head :: (said ++ stop :: rest), last⟩ :=
    (@finds_docs _ (head :: (said ++ stop :: rest)) _ [] [] rfl nofun (kind_ne_of_word hhead rfl)
      (kind_ne_of_word hhead rfl)).allowing
  change From may src ⟨head :: (said ++ [stop] ++ rest), last⟩ _ _
  rw [List.append_assoc]
  unfold statement
  refine hdocs.bind ?_
  rintro _ _ ⟨rfl, rfl⟩
  refine (from_group [] hhead hfirst (current_kind_trail hsaid hstop)).bind ?_
  rintro g _ ⟨⟨hg, hn⟩, rfl⟩
  obtain ⟨r, rfl, hr⟩ := List.map_eq_singleton_iff.mp hg
  cases more with
  | nil =>
    rw [List.map_eq_nil_iff.mp hsaid]
    refine finds_isAt hstop (from_ite (fun _ => ?_) fun hmany => absurd rfl hmany)
    exact finds_advance (from_pure ⟨⟨congrArg Statement.node hr, List.forall_mem_singleton.mpr hn⟩, rfl⟩)
  | cons m more =>
    have hnext : (⟨said ++ stop :: rest, last⟩ : TokenStream).current.kind ≠ .semicolon := by
      obtain ⟨arrow, said, rfl, harrow, -⟩ := List.map_eq_cons_iff.mp hsaid
      exact current_ne (kind_of_content harrow) nofun
    refine finds_isNotAt hnext (from_ite (fun hnode => by cases hnode) fun _ => ?_)
    refine (from_chainRest hsaid hmore hstop).bind ?_
    rintro found _ ⟨⟨hfound, hnames⟩, rfl⟩
    refine from_ite (fun hempty => ?_) fun _ => finds_expect hstop (from_pure ⟨⟨?_, ?_⟩, rfl⟩)
    · rw [List.isEmpty_iff.mp hempty] at hfound
      cases hfound
    · have hplain := congrArg (fun r : NodeRef => [{ r with docs := [] }]) hr
      exact congrArg Statement.chain (congrArg₂ (Chain.mk []) hplain hfound)
    · exact List.forall_mem_cons.mpr ⟨hn, hnames⟩

theorem from_trails {trails : List Trail} {closing : Token}
    (htoks : toks.map Token.content = (trails.flatMap Trail.words).flatMap Word.contents)
    (hmay : ∀ t ∈ trails, ∀ n ∈ t.names, ¬ n.IsCanonical → ∀ cause, may cause)
    (hclosing : closing.kind = .rightBrace) :
    From may src ⟨toks ++ closing :: rest, last⟩ (statements .rightBrace) fun found s' =>
      (found.map Statement.withoutSpans = trails.map Trail.statement ∧ ∀ t ∈ trails, t.IsCanonical) ∧
        s' = ⟨closing :: rest, last⟩ := by
  unfold statements
  refine from_items ⟨closing :: rest, last⟩ Statement.withoutSpans Trail.statement Trail.IsCanonical
    (fun trails s => ∃ toks, toks.map Token.content = (trails.flatMap Trail.words).flatMap Word.contents ∧
      (∀ t ∈ trails, ∀ n ∈ t.names, ¬ n.IsCanonical → ∀ cause, may cause) ∧
        s = ⟨toks ++ closing :: rest, last⟩)
    ⟨toks, htoks, hmay, rfl⟩ ?_ ?_ fun found hfound htrails => ⟨⟨hfound, htrails⟩, rfl⟩
  · rintro acc _ ⟨toks, htoks, -, rfl⟩
    rw [List.map_eq_nil_iff.mp htoks]
    exact finds_isAt hclosing (from_pure ⟨rfl, rfl⟩)
  · rintro acc t trails _ ⟨toks, htoks, hmay, rfl⟩
    obtain ⟨hfirst, hmay⟩ := List.forall_mem_cons.mp hmay
    rw [List.flatMap_cons, List.flatMap_append] at htoks
    obtain ⟨front, back, rfl, hfront, hback⟩ := List.map_eq_append_iff.mp htoks
    obtain ⟨head, said, stop, rfl, hhead, -, -⟩ := exists_trailTokens hfront
    refine finds_isNotAt (kind_ne_of_word hhead rfl) (from_current (from_ite (fun hend => ?_) fun _ => ?_))
    · exact absurd (beq_iff_eq.mp hend) (kind_ne_of_word hhead rfl)
    · rw [List.append_assoc]
      refine (from_trail hfront hfirst).bind ?_
      rintro found _ ⟨hfound, rfl⟩
      refine from_pure ⟨found, rfl, hfound, ?_, back, hback, hmay, rfl⟩
      simp only [List.length_append, List.length_cons]
      omega

/-- The public machine of some trails. -/
theorem from_trailDocument {n : PlainName} {trails : List Trail} {pub name brace closing : Token}
    (hpub : pub.content = (.pub, ['p', 'u', 'b'])) (hname : name.content = (.identifier, n.text.toList))
    (hbrace : brace.kind = .leftBrace)
    (htoks : toks.map Token.content = (trails.flatMap Trail.words).flatMap Word.contents)
    (hclosing : closing.kind = .rightBrace) (hlast : last.kind = .endOfInput)
    (hmay : ∀ t ∈ trails, ∀ n ∈ t.names, ¬ n.IsCanonical → ∀ cause, may cause) :
    From may src ⟨pub :: name :: brace :: (toks ++ [closing]), last⟩ document fun d _ =>
      d.withoutSpans = { name := n.text, statements := trails.map Trail.statement } ∧
        ∀ t ∈ trails, t.IsCanonical := by
  have hkind : pub.kind = .pub := kind_of_content hpub
  have hnamed : name.kind = .identifier := kind_of_content hname
  have hafter : afterPreamble none (pub :: name :: brace :: (toks ++ [closing])) =
      pub :: name :: brace :: (toks ++ [closing]) := by
    rw [afterPreamble, hkind]
  have hstarts : (⟨pub :: name :: brace :: (toks ++ [closing]), last⟩ : TokenStream).startsHeader = true := by
    have hcurrent : (⟨pub :: name :: brace :: (toks ++ [closing]), last⟩ : TokenStream).current = pub := rfl
    simp only [TokenStream.startsHeader, hafter, hcurrent, hkind]
  have hpreamble : From may src ⟨pub :: name :: brace :: (toks ++ [closing]), last⟩ preamble fun p s' =>
      p = {} ∧ s' = ⟨pub :: name :: brace :: (toks ++ [closing]), last⟩ :=
    (finds_preamble (current_ne hkind (by decide)) (current_ne hkind (by decide))).allowing
  have hvisibility : From may src ⟨pub :: name :: brace :: (toks ++ [closing]), last⟩ visibility fun v s' =>
      v = "pub" ∧ s' = ⟨name :: brace :: (toks ++ [closing]), last⟩ :=
    (@finds_visibility _ _ [pub] _ .everywhere _ (congrArg (fun c => [c]) hpub) hnamed).allowing
  unfold document
  refine from_get ?_
  rw [hstarts]
  unfold headedDocument
  change From may src _ (preamble >>= _) _
  refine hpreamble.bind ?_
  rintro _ _ ⟨rfl, rfl⟩
  refine (from_header hvisibility hnamed hbrace).bind ?_
  rintro _ _ ⟨rfl, rfl⟩
  refine finds_expect hbrace ((from_trails htoks hmay hclosing).bind ?_)
  rintro found _ ⟨⟨hfound, htrails⟩, rfl⟩
  refine finds_expect hclosing (finds_expectEnd hlast (from_pure ⟨?_, htrails⟩))
  have hvalue : name.value = n.text := value_of_content hname
  rw [← hvalue]
  exact congrArg (fun found => ({ name := name.value, statements := found } : Document)) hfound

end Parser

/-! ## Texts -/

/-- The words of the public machine of some trails. -/
def machineWords (n : PlainName) (trails : List Trail) : List Word :=
  Word.keyword .pub :: method n.text :: leftBrace :: (trails.flatMap Trail.words ++ [rightBrace])

theorem legible_machineWords (n : PlainName) (trails : List Trail) : ∀ w ∈ machineWords n trails, w.Legible := by
  have htrails : ∀ w ∈ trails.flatMap Trail.words, w.Legible := by
    intro w hw
    obtain ⟨t, -, hw⟩ := List.mem_flatMap.mp hw
    exact t.legible_words w hw
  simp only [machineWords, List.forall_mem_cons, List.forall_mem_append]
  exact ⟨Word.legible_keyword (by decide), n.legible, Word.legible_mark rfl, htrails, Word.legible_mark rfl, nofun⟩

/-- **Reading.** The machine of some trails is read if and only if all of their names are canonical. -/
theorem Source.parse_trails {src : Source} {n : PlainName} {trails : List Trail} (hn : n.IsCanonical)
    (h : LaidOut (machineWords n trails) src.text.toList) :
    match src.parse with
    | .ok d => d.withoutSpans = { name := n.text, statements := trails.map Trail.statement } ∧
        ∀ t ∈ trails, t.IsCanonical
    | .error _ => ¬ ∀ t ∈ trails, t.IsCanonical := by
  obtain ⟨_, mark, hts, hmark, htokens⟩ := h.tokenize (legible_machineWords n trails)
  obtain _ | ⟨hvis, _ | ⟨hword, _ | ⟨hopen, hinner⟩⟩⟩ := hts
  obtain ⟨toks, _, rfl, htoks, hend⟩ := hinner.exists_append
  obtain _ | ⟨hclose, _ | _⟩ := hend
  obtain ⟨pub, rfl, hpub⟩ := hvis.exists_token
  obtain ⟨name, rfl, hname⟩ := hword.exists_token
  obtain ⟨brace, rfl, hbrace⟩ := hopen.exists_token
  obtain ⟨closing, rfl, hclosing⟩ := hclose.exists_token
  rw [hn.ofWord] at hname
  have hdocument : Parser.From (fun _ => ¬ ∀ t ∈ trails, t.IsCanonical) src
      ⟨pub :: name :: brace :: (toks ++ [closing]), mark⟩ Parser.document _ :=
    Parser.from_trailDocument hpub hname (Parser.kind_of_content hbrace) htoks.contents
      (Parser.kind_of_content hclosing) hmark fun t ht m hm hnot _ hall => hnot (hall t ht m hm)
  have hrun := hdocument.run
  rw [Source.parse_of_tokenize htokens]
  change match Parser.document.run src (pub :: name :: brace :: (toks ++ [closing]) ++ [mark]) with
    | .ok d => _
    | .error _ => _
  cases hread : Parser.document.run src (pub :: name :: brace :: (toks ++ [closing]) ++ [mark]) with
  | ok d =>
    rw [hread] at hrun
    exact hrun.elim fun _ hd => hd
  | error e =>
    rw [hread] at hrun
    exact hrun

end Typestate
