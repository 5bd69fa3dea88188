import Typestate.Proofs.Grammar.Capture
import Typestate.Proofs.Grammar.Writing

/-!
What is written is read back: statements that can be written, in any spelling and any layout, alone or in
the braces of a machine (`Source.parse_spelled`).
-/

namespace Typestate

namespace Parser

open Word (doc identifier leftBrace rightBrace)

variable {src : Source} {rest : List Token} {last : Token} {ws : List Word} {toks : List Token}

/-! ## Statements -/

theorem contents_docs (lines : List String) :
    (lines.map doc).flatMap Word.contents = lines.map fun d => (.doc, d.toList) := by
  rw [List.flatMap_map]
  exact List.map_eq_flatMap.symm

/-- The documentation in front of a statement, which starts with a name. -/
theorem finds_statementDocs {lines : List String} {t : Token} (hlines : ∀ d ∈ lines, LineDoc d)
    (htoks : TokensOf src (lines.map doc) toks) (ht : t.kind = .identifier) :
    Finds src ⟨toks ++ t :: rest, last⟩ docs fun found s' => found = lines ∧ s' = ⟨t :: rest, last⟩ := by
  have hcontents := htoks.contents.trans (contents_docs lines)
  exact finds_docs hcontents (fun d hd => (hlines d hd).newline) (current_ne ht nofun) (current_ne ht nofun)

theorem finds_group_single {good : NodeRef → Prop} {lines : List String} {s : TokenStream} {next : Token}
    (hnext : next.kind ≠ .ampersand)
    (href : Finds src s (nodeRef lines) fun r s' => good r ∧ s' = ⟨next :: rest, last⟩) :
    Finds src s (group lines) fun g s' => (∃ r, good r ∧ g = [r]) ∧ s' = ⟨next :: rest, last⟩ := by
  unfold group
  refine href.bind ?_
  rintro r _ ⟨hr, rfl⟩
  exact from_rounds_step (finds_isNotAt hnext (from_pure ⟨⟨r, hr, rfl⟩, rfl⟩))

/-- A statement of one node is its documentation, the node, and a semicolon. -/
theorem finds_node {good : NodeRef → Prop} {lines : List String} {stop : Token} {s s₁ : TokenStream}
    (hstop : stop.kind = .semicolon) (hdocs : Finds src s docs fun found s' => found = lines ∧ s' = s₁)
    (href : Finds src s₁ (nodeRef lines) fun r s' => good r ∧ s' = ⟨stop :: rest, last⟩) :
    Finds src s statement fun found s' => (∃ r, good r ∧ found = .node r) ∧ s' = ⟨rest, last⟩ := by
  unfold statement
  refine hdocs.bind ?_
  rintro _ _ ⟨rfl, rfl⟩
  refine (finds_group_single (by rw [hstop]; nofun) href).bind ?_
  rintro _ _ ⟨⟨r, hr, rfl⟩, rfl⟩
  refine finds_isAt hstop (from_ite (fun _ => ?_) fun hmany => absurd rfl hmany)
  exact finds_advance (from_pure ⟨⟨r, hr, rfl⟩, rfl⟩)

theorem finds_chain {c : Chain} (hc : c.Writable) {front names said : List Token} {stop : Token}
    (hfront : TokensOf src (c.docs.map doc) front)
    (hnames : names.map Token.content = (groupWords c.first).flatMap Word.contents)
    (hspelled : StepsSpelled c.rest ws) (hsaid : said.map Token.content = ws.flatMap Word.contents)
    (hstop : stop.kind = .semicolon) :
    Finds src ⟨front ++ (names ++ (said ++ stop :: rest)), last⟩ statement fun found s' =>
      found.withoutSpans = (Statement.chain c).withoutSpans ∧ s' = ⟨rest, last⟩ := by
  obtain ⟨r, rs, hfirst⟩ := List.exists_cons_of_ne_nil hc.first.nonempty
  rw [hfirst] at hnames
  obtain ⟨t, names', rfl, ht, -⟩ := List.map_eq_cons_iff.mp (hnames.trans (contents_groupWords r rs))
  obtain ⟨u, said', rfl, hu⟩ := head_steps hspelled hc.nonempty hsaid
  have hstops : (⟨u :: said' ++ stop :: rest, last⟩ : TokenStream).current.kind ∈ typeStops :=
    current_kind_steps hspelled hsaid hstop
  obtain ⟨hcolon, hampersand⟩ := ne_of_mem_typeStops hstops
  have hcanonical : ∀ r' ∈ r :: rs, Identifier.canonical r'.name = .ok r'.name := fun r' hr' =>
    (hc.first.names r' (hfirst ▸ hr')).canonical
  unfold statement
  refine (finds_statementDocs hc.docs hfront (kind_of_content ht)).bind ?_
  rintro _ _ ⟨rfl, rfl⟩
  refine (finds_group hnames hcanonical hcolon hampersand).bind ?_
  rintro g _ ⟨hg, rfl⟩
  have hnext : u.kind ≠ .semicolon := by rcases hu with hu | hu <;> rw [hu] <;> nofun
  refine finds_isNotAt hnext (from_ite (fun hnode => by cases hnode) fun _ => ?_)
  refine (finds_chainRest hspelled hsaid hc.steps hstop).bind ?_
  rintro found _ ⟨hfound, rfl⟩
  refine from_ite (fun hempty => ?_) fun _ => finds_expect hstop (from_pure ⟨?_, rfl⟩)
  · have hlength := congrArg List.length hfound
    rw [List.isEmpty_iff.mp hempty, List.map_nil, List.length_map] at hlength
    exact absurd (List.eq_nil_of_length_eq_zero hlength.symm) hc.nonempty
  · have hplain : (g.map fun r => { r with docs := [] }).map NodeRef.withoutSpan =
        c.first.map NodeRef.withoutSpan := by
      have hclear := congrArg (List.map fun r : NodeRef => { r with docs := [] }) hg
      rw [← map_plainRef hc.first.bare, hfirst]
      rw [List.map_map] at hclear ⊢
      refine hclear.trans ?_
      rw [List.map_cons, List.map_map]
      rfl
    exact congrArg Statement.chain (congrArg₂ (Chain.mk c.docs) hplain hfound)

theorem finds_statement {s : Statement} (h : s.Spelled ws) (hs : s.Writable)
    (htoks : TokensOf src ws toks) :
    Finds src ⟨toks ++ rest, last⟩ statement fun found s' =>
      found.withoutSpans = s.withoutSpans ∧ s' = ⟨rest, last⟩ := by
  cases h with
  | @node r hty =>
    obtain ⟨front, back, rfl, hfront, hback⟩ := htoks.exists_append
    obtain ⟨t, stop, rfl, ht, hend⟩ := exists_pair hback.contents
    have hstop : stop.kind = .semicolon := kind_of_content hend
    rw [List.append_assoc]
    refine (finds_node hstop (finds_statementDocs hs.docs hfront (kind_of_content ht))
      (finds_nodeRef_bare ht hs.name.canonical (current_ne hstop nofun))).weaken ?_
    rintro _ _ ⟨⟨r', hr, rfl⟩, rfl⟩
    refine ⟨congrArg Statement.node ?_, rfl⟩
    rw [hr, NodeRef.withoutSpan, hty]
  | @typed r ty cs hty hcs =>
    obtain ⟨front, _, rfl, hfront, hback⟩ := htoks.exists_append
    obtain _ | ⟨hname, _ | ⟨hsep, _ | @⟨_, _, taken, _, htaken, _ | ⟨hend, _ | _⟩⟩⟩⟩ := hback
    obtain ⟨t, rfl, ht⟩ := hname.exists_token
    obtain ⟨colon, rfl, hcolon⟩ := hsep.exists_token
    obtain ⟨stop, rfl, hmark⟩ := hend.exists_token
    have hstop : stop.kind = .semicolon := kind_of_content hmark
    have hpayload := hs.ty ty hty
    have henclosed : Enclosed (taken.map Token.kind) := by
      have hkinds : taken.map Token.kind = cs.map (·.1) := by
        have hcontents : taken.map Token.content = cs := htaken.contents
        rw [← hcontents, List.map_map]
        rfl
      rw [hkinds]
      exact hpayload.enclosed hcs
    have htext : src.textOf taken = ty := htaken.text.trans hpayload.normal
    have hstream : front ++ ([t] ++ ([colon] ++ (taken ++ ([stop] ++ [])))) ++ rest =
        front ++ t :: colon :: (taken ++ stop :: rest) := by simp
    rw [hstream]
    refine (finds_node hstop (finds_statementDocs hs.docs hfront (kind_of_content ht))
      (finds_nodeRef_typed ht hs.name.canonical (kind_of_content hcolon) henclosed hstop)).weaken ?_
    rintro _ _ ⟨⟨r', hr, rfl⟩, rfl⟩
    refine ⟨congrArg Statement.node ?_, rfl⟩
    rw [hr, htext, NodeRef.withoutSpan, hty]
  | @chain c ws hspelled =>
    obtain ⟨front, _, rfl, hfront, hback⟩ := htoks.exists_append
    obtain ⟨names, _, rfl, hnames, hback⟩ := hback.exists_append
    obtain ⟨said, stops, rfl, hsaid, hstops⟩ := hback.exists_append
    obtain ⟨stop, rfl, hstop⟩ := List.map_eq_singleton_iff.mp hstops.contents
    simp only [List.append_assoc]
    exact finds_chain hs hfront hnames.contents hspelled hsaid.contents (kind_of_content hstop)

/-- The kinds of the tokens that stand behind the first name of a statement. -/
def afterNameKinds : List TokenKind := [.semicolon, .colon, .ampersand, .arrow, .minus]

/-- A statement is written as documentation, a name, and what may stand behind it. -/
theorem exists_contents {s : Statement} (h : s.Spelled ws) (hs : s.Writable) :
    ∃ (lines : List String) (name : List Char) (c : Content) (cs : List Content),
      ws.flatMap Word.contents = lines.map (fun d => (.doc, d.toList)) ++ (.identifier, name) :: c :: cs ∧
        c.1 ∈ afterNameKinds := by
  cases h with
  | @node r _ =>
    refine ⟨r.docs, r.name.toList, (.semicolon, [';']), [], ?_, by decide⟩
    rw [List.flatMap_append, contents_docs]
    rfl
  | @typed r ty cs _ _ =>
    refine ⟨r.docs, r.name.toList, (.colon, [':']), cs ++ [(.semicolon, [';'])], ?_, by decide⟩
    rw [List.flatMap_append, contents_docs]
    rfl
  | @chain c ws hspelled =>
    obtain ⟨r, rs, hfirst⟩ := List.exists_cons_of_ne_nil hs.first.nonempty
    rw [List.flatMap_append, contents_docs, List.flatMap_append, hfirst, contents_groupWords]
    cases rs with
    | nil =>
      cases hrest : c.rest with
      | nil => exact absurd hrest hs.nonempty
      | cons step steps =>
        rw [hrest] at hspelled
        obtain _ | ⟨harrow, _⟩ := hspelled
        obtain ⟨u, us, hu, hkind⟩ := head_arrow harrow
        rw [List.append_assoc, List.flatMap_append, hu]
        refine ⟨c.docs, r.name.toList, u, _, rfl, ?_⟩
        rcases hkind with hkind | hkind <;> rw [hkind] <;> decide
    | cons r' rs => exact ⟨c.docs, r.name.toList, (.ampersand, ['&']), _, rfl, by decide⟩

theorem exists_opening {s : Statement} (h : s.Spelled ws) (hs : s.Writable) (htoks : TokensOf src ws toks) :
    ∃ front t u back, toks = front ++ t :: u :: back ∧ (∀ d ∈ front, d.kind = .doc) ∧
      t.kind = .identifier ∧ u.kind ∈ afterNameKinds := by
  obtain ⟨lines, name, c, cs, hcontents, hc⟩ := exists_contents h hs
  obtain ⟨front, toks, rfl, hfront, hnext⟩ := List.map_eq_append_iff.mp (htoks.contents.trans hcontents)
  obtain ⟨t, toks, rfl, ht, hnext⟩ := List.map_eq_cons_iff.mp hnext
  obtain ⟨u, back, rfl, hu, -⟩ := List.map_eq_cons_iff.mp hnext
  refine ⟨front, t, u, back, rfl, fun d hd => ?_, kind_of_content ht, (kind_of_content hu) ▸ hc⟩
  have hmem := List.mem_map_of_mem (f := Token.content) hd
  rw [hfront] at hmem
  obtain ⟨line, -, hline⟩ := List.mem_map.mp hmem
  exact kind_of_content hline.symm

theorem finds_statements {statements : List Statement} {terminator : TokenKind}
    (h : Spelled statements ws) (hs : ∀ s ∈ statements, s.Writable) (htoks : TokensOf src ws toks)
    (hrest : (⟨rest, last⟩ : TokenStream).current.kind = terminator)
    (hterminator : terminator = .endOfInput ∨ terminator = .rightBrace) :
    Finds src ⟨toks ++ rest, last⟩ (Parser.statements terminator) fun found s' =>
      found.map Statement.withoutSpans = statements.map Statement.withoutSpans ∧ s' = ⟨rest, last⟩ := by
  unfold Parser.statements
  refine finds_rounds ⟨rest, last⟩ Statement.withoutSpans Statement.withoutSpans
    (fun statements s => ∃ ws toks, Spelled statements ws ∧ TokensOf src ws toks ∧
      (∀ s ∈ statements, s.Writable) ∧ s = ⟨toks ++ rest, last⟩)
    ⟨ws, toks, h, htoks, hs, rfl⟩ ?_ ?_ fun found hfound => ⟨hfound, rfl⟩
  · rintro acc _ ⟨_, _, ⟨⟩, ⟨⟩, -, rfl⟩
    exact finds_isAt hrest (from_pure ⟨rfl, rfl⟩)
  · rintro acc s statements _ ⟨_, toks, _ | @⟨_, _, ws, ws', hspelled, hothers⟩, htoks, hs, rfl⟩
    obtain ⟨hfirst, hs⟩ := List.forall_mem_cons.mp hs
    obtain ⟨front, back, rfl, hfront, hback⟩ := htoks.exists_append
    obtain ⟨t, front, rfl, hkind⟩ : ∃ t ts, front = t :: ts ∧ (t.kind = .doc ∨ t.kind = .identifier) := by
      obtain ⟨docs, t, u, back, rfl, hdocs, ht, -⟩ := exists_opening hspelled hfirst hfront
      cases docs with
      | nil => exact ⟨t, _, rfl, Or.inr ht⟩
      | cons d docs => exact ⟨d, _, rfl, Or.inl (hdocs d (List.mem_cons_self ..))⟩
    have hgoes : t.kind ≠ terminator := by
      rcases hterminator with rfl | rfl <;> rcases hkind with hkind | hkind <;> rw [hkind] <;> nofun
    have hends : t.kind ≠ .endOfInput := by rcases hkind with hkind | hkind <;> rw [hkind] <;> nofun
    refine finds_isNotAt hgoes (from_current (from_ite (fun hend => ?_) fun _ => ?_))
    · exact absurd (beq_iff_eq.mp hend) hends
    · rw [List.append_assoc]
      refine (finds_statement hspelled hfirst hfront).bind ?_
      rintro found _ ⟨hfound, rfl⟩
      refine from_pure ⟨found, rfl, hfound, ?_, ws', back, hothers, hback, hs, rfl⟩
      simp only [List.length_append, List.length_cons]
      omega

/-! ## Machines -/

theorem afterPreamble_docs {front back : List Token} {t : Token} (hfront : ∀ d ∈ front, d.kind = .doc)
    (ht : t.kind = .identifier) : afterPreamble none (front ++ t :: back) = t :: back := by
  induction front with
  | nil => rw [List.nil_append, afterPreamble, ht]
  | cons d front ih =>
    obtain ⟨hd, hfront⟩ := List.forall_mem_cons.mp hfront
    rw [List.cons_append, afterPreamble, hd]
    exact ih hfront

/-- What stands behind a name tells a header from a statement. -/
theorem startsHeader_eq {t u : Token} {back : List Token}
    (hafter : afterPreamble none toks = t :: u :: back) (ht : t.kind = .identifier) :
    (⟨toks, last⟩ : TokenStream).startsHeader = (t.value == enumWord && u.kind == .identifier ||
      u.kind == .leftBrace || u.kind == .lessThan || u.kind == .whereWord) := by
  have hcurrent : (TokenStream.mk (t :: u :: back) last).current = t := rfl
  have hnext : (TokenStream.mk (t :: u :: back) last).peek 1 = u := rfl
  simp only [TokenStream.startsHeader, hafter, hcurrent, hnext, ht]

/-- Statements do not look like a header. -/
theorem not_startsHeader {statements : List Statement} (h : Spelled statements ws)
    (hs : ∀ s ∈ statements, s.Writable) (htoks : TokensOf src ws toks) (hlast : last.kind = .endOfInput) :
    (⟨toks, last⟩ : TokenStream).startsHeader = false := by
  cases h with
  | nil =>
    cases htoks
    have hcurrent : (TokenStream.mk [] last).current = last := rfl
    simp only [TokenStream.startsHeader, afterPreamble, hcurrent, hlast]
  | cons hspelled _ =>
    obtain ⟨first, more, rfl, hfirst, -⟩ := htoks.exists_append
    obtain ⟨front, t, u, back, rfl, hfront, ht, hu⟩ :=
      exists_opening hspelled (hs _ (List.mem_cons_self ..)) hfirst
    have hafter : afterPreamble none (front ++ t :: u :: back ++ more) = t :: u :: (back ++ more) := by
      rw [List.append_assoc]
      exact afterPreamble_docs hfront ht
    rw [startsHeader_eq hafter ht]
    simp only [afterNameKinds, List.mem_cons, List.not_mem_nil, or_false] at hu
    rcases hu with hu | hu | hu | hu | hu <;> rw [hu] <;> simp

theorem finds_bareDocument {statements : List Statement} (h : Spelled statements ws)
    (hs : ∀ s ∈ statements, s.Writable) (htoks : TokensOf src ws toks) (hlast : last.kind = .endOfInput) :
    Finds src ⟨toks, last⟩ document fun d _ =>
      d.withoutSpans = { statements := statements.map Statement.withoutSpans } := by
  have hnone : (⟨[], last⟩ : TokenStream).current.kind = .endOfInput := hlast
  have hstatements := finds_statements h hs htoks hnone (Or.inl rfl)
  rw [List.append_nil] at hstatements
  unfold document
  refine from_get ?_
  rw [not_startsHeader h hs htoks hlast]
  unfold bareDocument
  refine from_current (hstatements.bind ?_)
  rintro found _ ⟨hfound, rfl⟩
  exact from_pure (congrArg (fun found => ({ statements := found } : Document)) hfound)

/-- Nothing stands in front of a header that starts with its first word. -/
theorem finds_preamble (hdoc : (⟨toks, last⟩ : TokenStream).current.kind ≠ .doc)
    (hpound : (⟨toks, last⟩ : TokenStream).current.kind ≠ .pound) :
    Finds src ⟨toks, last⟩ preamble fun p s' => p = {} ∧ s' = ⟨toks, last⟩ := by
  unfold preamble
  refine from_rounds_step (from_current ?_)
  split
  · next hkind => exact absurd hkind hdoc
  · next hkind => exact absurd hkind hpound
  · exact from_pure ⟨rfl, rfl⟩

/-- Behind the visibility of a machine that has no parameters stand its name and a brace. -/
theorem from_header {may : ParseCause → Prop} {vis : String} {name brace : Token} {s : TokenStream}
    (hvisibility : From may src s visibility fun v s' => v = vis ∧ s' = ⟨name :: brace :: rest, last⟩)
    (hname : name.kind = .identifier) (hbrace : brace.kind = .leftBrace) :
    From may src s header fun h s' => h = ⟨vis, name, "", []⟩ ∧ s' = ⟨brace :: rest, last⟩ := by
  have hgenerics : From may src ⟨brace :: rest, last⟩ generics fun g s' =>
      g = "" ∧ s' = ⟨brace :: rest, last⟩ := by
    unfold generics
    exact finds_isNotAt (current_ne hbrace nofun) (from_pure ⟨rfl, rfl⟩)
  have hwhere : From may src ⟨brace :: rest, last⟩ whereClause fun w s' =>
      w = [] ∧ s' = ⟨brace :: rest, last⟩ := by
    unfold whereClause
    exact finds_isNotAt (current_ne hbrace nofun) (from_pure ⟨rfl, rfl⟩)
  unfold header
  refine hvisibility.bind ?_
  rintro _ _ ⟨rfl, rfl⟩
  refine from_get (from_ite (fun henum => ?_) fun _ => finds_expect hname (hgenerics.bind ?_))
  · rw [Bool.and_eq_true, beq_iff_eq] at henum
    exact absurd (hbrace.symm.trans henum.2) nofun
  rintro _ _ ⟨rfl, rfl⟩
  refine hwhere.bind ?_
  rintro _ _ ⟨rfl, rfl⟩
  exact from_pure ⟨rfl, rfl⟩

theorem finds_header {name brace : Token} (hname : name.kind = .identifier)
    (hbrace : brace.kind = .leftBrace) :
    Finds src ⟨name :: brace :: rest, last⟩ header fun h s' =>
      h = ⟨"", name, "", []⟩ ∧ s' = ⟨brace :: rest, last⟩ := by
  refine from_header ?_ hname hbrace
  unfold visibility
  exact finds_isNotAt (current_ne hname nofun) (from_pure ⟨rfl, rfl⟩)

theorem finds_headedDocument {statements : List Statement} {name : String} {first brace closing : Token}
    (h : Spelled statements ws) (hs : ∀ s ∈ statements, s.Writable) (htoks : TokensOf src ws toks)
    (hfirst : first.content = (.identifier, name.toList)) (hbrace : brace.kind = .leftBrace)
    (hclosing : closing.kind = .rightBrace) (hlast : last.kind = .endOfInput) :
    Finds src ⟨first :: brace :: (toks ++ [closing]), last⟩ document fun d _ =>
      d.withoutSpans = { name, vis := "", statements := statements.map Statement.withoutSpans } := by
  have hkind : first.kind = .identifier := kind_of_content hfirst
  have hstarts : (⟨first :: brace :: (toks ++ [closing]), last⟩ : TokenStream).startsHeader = true := by
    have hafter : afterPreamble none (first :: brace :: (toks ++ [closing])) =
        first :: brace :: (toks ++ [closing]) := afterPreamble_docs (List.forall_mem_nil _) hkind
    rw [startsHeader_eq hafter hkind, hbrace]
    simp
  have hbehind : (⟨[closing], last⟩ : TokenStream).current.kind = .rightBrace := hclosing
  have hstatements := finds_statements h hs htoks hbehind (Or.inr rfl)
  unfold document
  refine from_get ?_
  rw [hstarts]
  unfold headedDocument
  change Finds src _ (preamble >>= _) _
  refine From.bind (finds_preamble (current_ne hkind nofun) (current_ne hkind nofun)) ?_
  rintro _ _ ⟨rfl, rfl⟩
  refine (finds_header hkind hbrace).bind ?_
  rintro _ _ ⟨rfl, rfl⟩
  refine finds_expect hbrace (hstatements.bind ?_)
  rintro found _ ⟨hfound, rfl⟩
  refine finds_expect hclosing (finds_expectEnd hlast (from_pure ?_))
  have hvalue : first.value = name := value_of_content hfirst
  rw [← hvalue]
  exact congrArg (fun found => ({ name := first.value, vis := "", statements := found } : Document)) hfound

end Parser

/-! ## Texts -/

/-- What a reader does from the tokens of a source on. -/
theorem Parser.From.run {α : Type} {may : ParseCause → Prop} {src : Source} {p : Parser α} {ts : List Token}
    {mark : Token} {post : α → TokenStream → Prop} (h : Parser.From may src ⟨ts, mark⟩ p post) :
    match p.run src (ts ++ [mark]) with
    | .ok a => ∃ s', post a s'
    | .error e => may e.cause := by
  have hstream : TokenStream.ofTokens (ts ++ [mark]) = ⟨ts, mark⟩ := by
    rw [TokenStream.ofTokens, List.dropLast_concat, List.getLast?_concat]
    rfl
  unfold Parser.run
  rw [hstream]
  unfold Parser.From at h
  cases hrun : p src ⟨ts, mark⟩ with
  | ok a s' =>
    rw [hrun] at h
    exact ⟨s', h⟩
  | error e s' =>
    rw [hrun] at h
    exact h

/-- A reader that finds something on the tokens of a source ends with it. -/
theorem Parser.Finds.exists_run {α : Type} {src : Source} {p : Parser α} {ts : List Token} {mark : Token}
    {post : α → TokenStream → Prop} (h : Parser.Finds src ⟨ts, mark⟩ p post) :
    ∃ a s', p.run src (ts ++ [mark]) = .ok a ∧ post a s' := by
  have hend := h.run
  cases hrun : p.run src (ts ++ [mark]) with
  | ok a =>
    rw [hrun] at hend
    obtain ⟨s', ha⟩ := hend
    exact ⟨a, s', rfl, ha⟩
  | error e =>
    rw [hrun] at hend
    exact hend.elim

/-- **Round trip.** Statements that can be written are read back from every text that has their words, alone
or in the braces of a machine. -/
theorem Source.parse_spelled {statements : List Statement} (hs : ∀ s ∈ statements, s.Writable) :
    (∃ words text, Spelled statements words ∧ LaidOut words text) ∧
      ∀ words, Spelled statements words →
        (∀ src : Source, LaidOut words src.text.toList → ∃ d, src.parse = .ok d ∧
          d.withoutSpans = { statements := statements.map Statement.withoutSpans }) ∧
        ∀ (src : Source) (name : String), ReadAs name [(.identifier, name.toList)] →
          LaidOut (Word.identifier name :: Word.leftBrace :: (words ++ [Word.rightBrace])) src.text.toList →
          ∃ d, src.parse = .ok d ∧ d.withoutSpans =
            { name, vis := "", statements := statements.map Statement.withoutSpans } := by
  refine ⟨?_, fun words hwords => ⟨fun src htext => ?_, fun src name hname htext => ?_⟩⟩
  · obtain ⟨words, hwords⟩ := exists_spelled hs
    exact ⟨words, onLines words, hwords, laidOut_onLines words⟩
  · obtain ⟨ts, mark, hts, hmark, htokens⟩ := htext.tokenize (hwords.legible hs)
    obtain ⟨d, -, hrun, hd⟩ := (Parser.finds_bareDocument hwords hs hts hmark).exists_run
    exact ⟨d, by rw [parse_of_tokenize htokens, hrun], hd⟩
  · have hlegible : ∀ w ∈ Word.identifier name :: Word.leftBrace :: (words ++ [Word.rightBrace]),
        w.Legible := by
      refine List.forall_mem_cons.mpr ⟨Word.legible_identifier hname, ?_⟩
      refine List.forall_mem_cons.mpr ⟨Word.legible_mark rfl, ?_⟩
      refine List.forall_mem_append.mpr ⟨hwords.legible hs, ?_⟩
      exact List.forall_mem_singleton.mpr (Word.legible_mark rfl)
    obtain ⟨_, mark, hts, hmark, htokens⟩ := htext.tokenize hlegible
    obtain _ | ⟨hword, _ | ⟨hopen, hinner⟩⟩ := hts
    obtain ⟨toks, _, rfl, htoks, hend⟩ := hinner.exists_append
    obtain _ | ⟨hclose, _ | _⟩ := hend
    obtain ⟨first, rfl, hfirst⟩ := hword.exists_token
    obtain ⟨brace, rfl, hbrace⟩ := hopen.exists_token
    obtain ⟨closing, rfl, hclosing⟩ := hclose.exists_token
    obtain ⟨d, -, hrun, hd⟩ := (Parser.finds_headedDocument hwords hs htoks hfirst
      (Parser.kind_of_content hbrace) (Parser.kind_of_content hclosing) hmark).exists_run
    exact ⟨d, (parse_of_tokenize htokens).trans hrun, hd⟩

/-- Statements of both forms, with arrows of all kinds. -/
def lamp : List Statement :=
  [.node { name := "Off", ty := some "fn([u8; 2]) -> u8", docs := [" Dark.", ""] },
    .chain {
      docs := [" Light."]
      first := [{ name := "Off" }, { name := "Up" }]
      rest := [({ form := .named "on" [" Say \"now\".", " Push."] }, [{ name := "On" }]),
        ({ form := .long }, [{ name := "Off" }, { name := "Up" }]),
        ({ form := .documented [" again"] }, [{ name := "On" }]),
        ({ form := .plain }, [{ name := "Up" }]),
        ({ form := .named "where" [] }, [{ name := "Off" }])] }]

def lampText : String :=
  "/// Dark.\n///\nOff: fn([u8; 2]) -> u8;\n\n/// Light.\nOff & Up\n" ++
    "  -on \"Say \\\"now\\\".\nPush.\"-> On --> Off&Up --\"again\"--> On -> Up -where->Off;"

theorem lamp_spelled : ∃ words, Spelled lamp words ∧ LaidOut words lampText.toList ∧
    LaidOut (Word.identifier "Lamp" :: Word.leftBrace :: (words ++ [Word.rightBrace]))
      ("Lamp \x7b " ++ lampText ++ " \x7d").toList := by
  have hty : ReadAs "fn([u8; 2]) -> u8" [(.identifier, ['f', 'n']), (.leftParen, ['(']),
      (.leftBracket, ['[']), (.identifier, ['u', '8']), (.semicolon, [';']), (.number, ['2']),
      (.rightBracket, [']']), (.rightParen, [')']), (.arrow, ['-', '>']), (.identifier, ['u', '8'])] := by
    decide +kernel
  have hon : (ArrowForm.named "on" [" Say \"now\".", " Push."]).Spelled _ :=
    .both false false (by decide) (escaped_flatMap _)
  have hagain : (ArrowForm.documented [" again"]).Spelled _ := .documented true true (escaped_flatMap _)
  refine ⟨_, .cons (.typed rfl hty) (.cons (.chain (.cons hon (.cons .long (.cons hagain
    (.cons .plain (.cons (.named "where" false false) .nil)))))) .nil), ?_, ?_⟩
  · exact laidOut_of_findsWords (by decide +kernel)
  · exact laidOut_of_findsWords (by decide +kernel)

theorem lamp_reads : (∀ s ∈ lamp, s.Writable) ∧
    (∃ d, ({ text := lampText } : Source).parse = .ok d ∧ d.withoutSpans = { statements := lamp }) ∧
    ∃ d, ({ text := "Lamp \x7b " ++ lampText ++ " \x7d" } : Source).parse = .ok d ∧
      d.withoutSpans = { name := "Lamp", vis := "", statements := lamp } := by
  have hs : ∀ s ∈ lamp, s.Writable := by decide +kernel
  obtain ⟨words, hwords, htext, hheaded⟩ := lamp_spelled
  have hread := (Source.parse_spelled hs).2 words hwords
  exact ⟨hs, hread.1 _ htext, hread.2 _ "Lamp" (by decide +kernel) hheaded⟩

end Typestate
