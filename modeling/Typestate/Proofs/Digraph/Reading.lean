import Typestate.Digraph.Clause
import Typestate.Proofs.Digraph.Trails

/-!
Trails as the reference library reads them. There are no tokens in its language, and a keyword may be the beginning of
a name, so each reader is followed on the text itself, from one written word to the next. A digraph of trails is read
as their clauses (`graphs_trails`).
-/

namespace Typestate

open Word (method arrow semicolon leftBrace rightBrace)

open Identifier (IsPlainWord)

theorem Identifier.exists_cons_of_isPlainWord {cs : List Char} (h : IsPlainWord cs) :
    ∃ c more, cs = c :: more ∧ isPlainStart c = true ∧ ∀ d ∈ c :: more, isPlainChar d = true := by
  cases h with
  | cons hstart hrest =>
    exact ⟨_, _, rfl, hstart, List.forall_mem_cons.mpr ⟨isPlainChar_of_isPlainStart hstart, hrest⟩⟩

namespace Digraph

/-! ## Gaps -/

theorem skipGap_spaces {gap : List Char} (hgap : ∀ c ∈ gap, Lexeme.isSpace c = true) (rest : List Char) :
    skipGap (gap ++ rest) = skipGap rest := by
  induction gap with
  | nil => rfl
  | cons c gap ih =>
    obtain ⟨hc, hgap⟩ := List.forall_mem_cons.mp hgap
    rw [List.cons_append, skipGap, skipFrom, if_pos hc]
    exact ih hgap

/-- The character is no space and starts no comment. -/
def IsVisible (c : Char) : Prop := Lexeme.isSpace c = false ∧ c ≠ '#' ∧ c ≠ '/'

instance (c : Char) : Decidable (IsVisible c) :=
  inferInstanceAs (Decidable (Lexeme.isSpace c = false ∧ c ≠ '#' ∧ c ≠ '/'))

theorem skipGap_visible {c : Char} (h : IsVisible c) (rest : List Char) : skipGap (c :: rest) = c :: rest := by
  obtain ⟨hspace, hpound, hslash⟩ := h
  simp [skipGap, skipFrom, hspace, hpound, hslash]

theorem isVisible_of_isPlainChar {c : Char} (h : Identifier.isPlainChar c = true) : IsVisible c := by
  refine ⟨?_, ?_, ?_⟩
  · rw [← Bool.not_eq_true]
    intro hspace
    rcases Lexeme.eq_of_isSpace hspace with rfl | rfl | rfl | rfl <;> exact absurd h (by decide)
  · rintro rfl
    exact absurd h (by decide)
  · rintro rfl
    exact absurd h (by decide)

/-! ## Words ahead -/

/-- The word is next, and behind it is a text that has the other words in a row. -/
structure Ahead (w : Word) (ws : List Word) (cs rest : List Char) : Prop where
  skip : skipGap cs = w.text ++ rest
  behind : LaidOut ws rest
  fewer : rest.length < cs.length

theorem exists_ahead {w : Word} {ws : List Word} {cs : List Char} (h : LaidOut (w :: ws) cs)
    (hw : ∃ c more, w.text = c :: more ∧ IsVisible c) : ∃ rest, Ahead w ws cs rest := by
  obtain ⟨c, more, htext, hc⟩ := hw
  cases h with
  | @cons gap rest w ws hgap hapart hrest =>
    refine ⟨rest, ?_, hrest, ?_⟩
    · rw [skipGap_spaces hgap, htext]
      exact skipGap_visible hc (more ++ rest)
    · simp only [htext, List.length_append, List.length_cons]
      omega

/-- The words of a body that are no names. -/
def signs : List Word := [arrow, semicolon, leftBrace, rightBrace]

theorem exists_sign_ahead {w : Word} {ws : List Word} {cs : List Char} (h : LaidOut (w :: ws) cs)
    (hw : w ∈ signs) : ∃ rest, Ahead w ws cs rest := by
  apply exists_ahead h
  simp only [signs, List.mem_cons, List.not_mem_nil, or_false] at hw
  rcases hw with rfl | rfl | rfl | rfl
  all_goals exact ⟨_, _, rfl, by decide⟩

theorem exists_name_ahead {n : String} {ws : List Word} {cs : List Char} (hn : IsPlainWord n.toList)
    (h : LaidOut (method n :: ws) cs) : ∃ rest, Ahead (method n) ws cs rest := by
  obtain ⟨c, more, hcons, -, hchars⟩ := Identifier.exists_cons_of_isPlainWord hn
  exact exists_ahead h ⟨c, more, hcons, isVisible_of_isPlainChar (hchars c (List.mem_cons_self ..))⟩

/-- What may stand behind a name: white space, and the first characters of signs. -/
def breaks : List Char := [' ', '\t', '\r', '\n', '-', ';', '\x7b', '\x7d']

theorem head_mem_breaks {w : Word} {ws : List Word} {cs : List Char} (h : LaidOut (w :: ws) cs)
    (hw : w ∈ signs) : ∀ c ∈ cs.head?, c ∈ breaks := by
  have hsigns : ∀ w ∈ signs, ∃ c more, w.text = c :: more ∧ c ∈ breaks := by
    simp only [signs, List.forall_mem_cons]
    exact ⟨⟨_, _, rfl, by decide⟩, ⟨_, _, rfl, by decide⟩, ⟨_, _, rfl, by decide⟩, ⟨_, _, rfl, by decide⟩, nofun⟩
  cases h with
  | @cons gap rest w ws hgap hapart hrest =>
    cases gap with
    | nil =>
      obtain ⟨c, more, htext, hc⟩ := hsigns w hw
      rw [htext]
      rintro _ ⟨⟩
      exact hc
    | cons d gap =>
      rintro _ ⟨⟩
      rcases Lexeme.eq_of_isSpace (hgap d (List.mem_cons_self ..)) with rfl | rfl | rfl | rfl <;> decide

/-! ## Marks -/

section
variable {w : Word} {ws : List Word} {cs rest : List Char} {n : String}

theorem mark_word (h : Ahead w ws cs rest) : mark w.text cs = some rest := by
  unfold mark
  rw [h.skip, if_pos (List.isPrefixOf_iff_prefix.mpr (List.prefix_append ..)), List.drop_left]

theorem mark_other {c d : Char} {ds more : List Char} (hskip : skipGap cs = c :: more) (hne : d ≠ c) :
    mark (d :: ds) cs = none := by
  unfold mark
  rw [hskip, if_neg]
  simp [List.isPrefixOf, hne]

theorem skipGap_name (h : Ahead (method n) ws cs rest) : skipGap cs = n.toList ++ rest := h.skip

theorem mark_name (hn : IsPlainWord n.toList) (h : Ahead (method n) ws cs rest) {d : Char} (ds : List Char)
    (hd : Identifier.isPlainChar d = false) : mark (d :: ds) cs = none := by
  obtain ⟨c, more, hcons, -, hchars⟩ := Identifier.exists_cons_of_isPlainWord hn
  have hskip := skipGap_name h
  rw [hcons] at hskip
  apply mark_other hskip
  rintro rfl
  rw [hchars d (List.mem_cons_self ..)] at hd
  cases hd

/-! ## Names -/

theorem isWordChar_of_isPlainChar {c : Char} (h : Identifier.isPlainChar c = true) : isWordChar c = true := by
  have hascii := Identifier.toNat_lt_of_isPlainChar h
  have hplane : c.toNat ≤ 0xFFFF := by omega
  simp only [Identifier.isPlainChar, Bool.or_eq_true] at h
  simp only [isWordChar, Unicode.isLetter, Unicode.isDigit, if_pos hascii, hplane, decide_true, Bool.true_and,
    Bool.or_eq_true]
  tauto

/-- No name goes on behind a break. -/
theorem head_of_breaks (h : LaidOut (w :: ws) cs) (hw : w ∈ signs) : ∀ c ∈ cs.head?, isWordChar c = false := by
  have hbreaks : ∀ c ∈ breaks, isWordChar c = false := by
    rw [← List.forall_iff_forall_mem]
    decide
  exact fun c hc => hbreaks c (head_mem_breaks h hw c hc)

/-- A name is read up to a character that is in no name. -/
theorem name_plain {front : List Char} (hskip : skipGap cs = front ++ rest) (hne : front ≠ [])
    (hchars : ∀ c ∈ front, Identifier.isPlainChar c = true) (hrest : ∀ c ∈ rest.head?, isWordChar c = false) :
    name cs = some (front, rest) := by
  have hquote : mark ['"'] cs = none := by
    obtain ⟨c, more, rfl⟩ := List.exists_cons_of_ne_nil hne
    apply mark_other hskip
    rintro rfl
    exact absurd (hchars _ (List.mem_cons_self ..)) (by decide)
  have hword : (front ++ rest).takeWhile isWordChar = front := by
    rw [List.takeWhile_append_of_pos fun c hc => isWordChar_of_isPlainChar (hchars c hc)]
    cases rest with
    | nil => simp
    | cons d rest => simp [hrest d rfl]
  have hnone : quotedNames cs = none := by simp [quotedNames, quotedName, hquote]
  have hread : word cs = some (front, rest) := by
    unfold word
    rw [hskip]
    dsimp only
    rw [hword]
    obtain ⟨c, more, rfl⟩ := List.exists_cons_of_ne_nil hne
    simp
  rw [name, hnone, hread]
  rfl

theorem name_name (hn : IsPlainWord n.toList) (h : Ahead (method n) (w :: ws) cs rest) (hw : w ∈ signs) :
    name cs = some (n.toList, rest) := by
  obtain ⟨c, more, hcons, -, -⟩ := Identifier.exists_cons_of_isPlainWord hn
  have hne : n.toList ≠ [] := by simp [hcons]
  exact name_plain (skipGap_name h) hne (Identifier.isPlainChar_of_mem hn) (head_of_breaks h.behind hw)

theorem name_none {c : Char} {more : List Char} (hskip : skipGap cs = c :: more) (hquote : '"' ≠ c)
    (hangle : '<' ≠ c) (hword : isWordChar c = false) : name cs = none := by
  have hquoted : quotedNames cs = none := by simp [quotedNames, quotedName, mark_other hskip hquote]
  have hmarkup : markup cs = none := by simp [markup, mark_other hskip hangle]
  simp [name, hquoted, hmarkup, Typestate.Digraph.word, hskip, hword]

theorem name_sign (h : Ahead w ws cs rest) (hw : w ∈ signs) : name cs = none := by
  have hskip := h.skip
  simp only [signs, List.mem_cons, List.not_mem_nil, or_false] at hw
  rcases hw with rfl | rfl | rfl | rfl
  all_goals exact name_none hskip (by decide) (by decide) (by decide)

/-! ## Keywords -/

/-- A keyword that is taken from in front of a break leaves all behind the break. -/
theorem exists_of_dropKeyword {ks front after : List Char} (h : dropKeyword ks (front ++ rest) = some after)
    (hks : ∀ k ∈ ks, ∀ c ∈ breaks, Unicode.sameLetter k c = false) (hrest : ∀ c ∈ rest.head?, c ∈ breaks) :
    ∃ back, back <:+ front ∧ after = back ++ rest := by
  induction ks generalizing front with
  | nil =>
    cases h
    exact ⟨front, List.suffix_rfl, rfl⟩
  | cons k ks ih =>
    obtain ⟨hk, hks⟩ := List.forall_mem_cons.mp hks
    cases front with
    | nil =>
      cases rest with
      | nil => cases h
      | cons c rest =>
        rw [List.nil_append, dropKeyword, hk c (hrest c rfl)] at h
        cases h
    | cons c front =>
      rw [List.cons_append, dropKeyword] at h
      split at h
      · obtain ⟨back, hback, rfl⟩ := ih h hks
        exact ⟨back, hback.trans (List.suffix_cons c front), rfl⟩
      · cases h

theorem dropKeyword_self {ks : List Char} (hks : ∀ k ∈ ks, Unicode.sameLetter k k = true) :
    dropKeyword ks (ks ++ rest) = some rest := by
  induction ks with
  | nil => rfl
  | cons k ks ih =>
    obtain ⟨hk, hks⟩ := List.forall_mem_cons.mp hks
    rw [List.cons_append, dropKeyword, if_pos hk]
    exact ih hks

/-! ## Ends of edges -/

/-- The words that stand behind a name in a trail. -/
def stops : List Word := [arrow, semicolon]

theorem mem_signs_of_mem_stops (h : w ∈ stops) : w ∈ signs := by
  simp only [stops, signs, List.mem_cons, List.not_mem_nil, or_false] at h ⊢
  tauto

theorem mark_stop (h : Ahead w ws cs rest) (hw : w ∈ stops) {d : Char} (ds : List Char) (hd : d ∉ ['-', ';']) :
    mark (d :: ds) cs = none := by
  have hskip := h.skip
  simp only [List.mem_cons, List.not_mem_nil, or_false, not_or] at hd
  simp only [stops, List.mem_cons, List.not_mem_nil, or_false] at hw
  rcases hw with rfl | rfl
  · exact mark_other hskip hd.1
  · exact mark_other hskip hd.2

/-- What is left of a name behind a keyword, and the text behind the name. -/
theorem exists_of_keyword (hn : IsPlainWord n.toList) (h : Ahead (method n) (w :: ws) cs rest) (hw : w ∈ stops)
    {key : String} (hkey : key ∈ ["graph", "node", "edge", "subgraph"]) {after : List Char}
    (hafter : keyword key cs = some after) :
    ∃ back, (∀ c ∈ back, Identifier.isPlainChar c = true) ∧ after = back ++ rest := by
  have hletters : ∀ key ∈ ["graph", "node", "edge", "subgraph"], ∀ k ∈ key.toList, ∀ c ∈ breaks,
      Unicode.sameLetter k c = false := by
    simp only [← List.forall_iff_forall_mem]
    decide
  unfold keyword at hafter
  rw [skipGap_name h] at hafter
  obtain ⟨back, hback, rfl⟩ := exists_of_dropKeyword hafter (hletters key hkey)
    (head_mem_breaks h.behind (mem_signs_of_mem_stops hw))
  exact ⟨back, fun c hc => Identifier.isPlainChar_of_mem hn c (hback.subset hc), rfl⟩

theorem skipGap_append {front : List Char} (hne : front ≠ [])
    (hchars : ∀ c ∈ front, Identifier.isPlainChar c = true) : skipGap (front ++ rest) = front ++ rest := by
  obtain ⟨c, more, rfl⟩ := List.exists_cons_of_ne_nil hne
  exact skipGap_visible (isVisible_of_isPlainChar (hchars c (List.mem_cons_self ..))) (more ++ rest)

/-- A name is no group, not even if it begins with the keyword of one. -/
theorem group_name (clause : Reader Clause) (hn : IsPlainWord n.toList) (h : Ahead (method n) (w :: ws) cs rest)
    (hw : w ∈ stops) : group clause cs = none := by
  obtain ⟨behind, hbehind⟩ := exists_sign_ahead h.behind (mem_signs_of_mem_stops hw)
  have hclosed : mark ['\x7b'] rest = none := mark_stop hbehind hw [] (by decide)
  have hblock : ∀ text, mark ['\x7b'] text = none → (block clause text).toOption = none := by
    intro text htext
    rw [block, htext]
    rfl
  have hopen : mark ['\x7b'] cs = none := mark_name hn h [] (by decide)
  unfold group
  dsimp only
  rw [hblock cs hopen]
  cases hkeyword : keyword "subgraph" cs with
  | none => rfl
  | some after =>
    obtain ⟨back, hback, rfl⟩ := exists_of_keyword hn h hw (by decide) hkeyword
    have hnext : ((name (back ++ rest)).map (·.2)).getD (back ++ rest) = rest := by
      rcases eq_or_ne back [] with rfl | hne
      · rw [List.nil_append, name_sign hbehind (mem_signs_of_mem_stops hw)]
        rfl
      · rw [name_plain (skipGap_append hne hback) hne hback
          (head_of_breaks h.behind (mem_signs_of_mem_stops hw))]
        rfl
    simp [hnext, hblock rest hclosed]

theorem nodeName_name (hn : IsPlainWord n.toList) (h : Ahead (method n) (w :: ws) cs rest) (hw : w ∈ stops) :
    nodeName cs = some (n, rest) := by
  obtain ⟨behind, hbehind⟩ := exists_sign_ahead h.behind (mem_signs_of_mem_stops hw)
  have hport : mark [':'] rest = none := mark_stop hbehind hw [] (by decide)
  simp [nodeName, name_name hn h (mem_signs_of_mem_stops hw), hport]

theorem endpoint_name (clause : Reader Clause) (hn : IsPlainWord n.toList)
    (h : Ahead (method n) (w :: ws) cs rest) (hw : w ∈ stops) : endpoint clause cs = some (.node n, rest) := by
  rw [endpoint, group_name clause hn h hw, nodeName_name hn h hw]
  rfl

/-- Behind a name of a trail stands an arrow or the semicolon. -/
theorem exists_stop (names : List PlainName) (ws : List Word) :
    ∃ w more, Trail.steps names ++ semicolon :: ws = w :: more ∧ w ∈ stops := by
  cases names with
  | nil => exact ⟨semicolon, ws, rfl, by simp [stops]⟩
  | cons n names => exact ⟨arrow, _, rfl, by simp [stops]⟩

/-! ## Repetition -/

/-- A list is read by steps that take one item each, up to a place where none can be read. -/
theorem exists_many {α γ : Type} {p : Reader α} (seen : γ → α) (Left : List γ → List Char → Prop)
    (hdone : ∀ cs, Left [] cs → p cs = none)
    (hagain : ∀ x xs cs, Left (x :: xs) cs →
      ∃ rest, p cs = some (seen x, rest) ∧ rest.length < cs.length ∧ Left xs rest)
    {xs : List γ} {cs : List Char} (h : Left xs cs) :
    ∃ rest, many p cs = (xs.map seen, rest) ∧ rest.length ≤ cs.length ∧ Left [] rest := by
  induction xs generalizing cs with
  | nil =>
    refine ⟨cs, ?_, Nat.le_refl _, h⟩
    rw [many, hdone cs h]
    rfl
  | cons x xs ih =>
    obtain ⟨rest, hread, hfewer, hleft⟩ := hagain x xs cs h
    obtain ⟨last, hmany, hlength, hlast⟩ := ih hleft
    refine ⟨last, ?_, by omega, hlast⟩
    rw [many, hread]
    simp [hfewer, hmany]

/-- The names behind the first one of a trail. -/
theorem exists_furtherEnds (clause : Reader Clause) {names : List PlainName}
    (h : LaidOut (Trail.steps names ++ semicolon :: ws) cs) :
    ∃ rest, many (furtherEnd clause) cs = (names.map fun n => .node n.text, rest) ∧
      rest.length ≤ cs.length ∧ LaidOut (semicolon :: ws) rest := by
  refine exists_many (fun n : PlainName => Endpoint.node n.text)
    (fun names cs => LaidOut (Trail.steps names ++ semicolon :: ws) cs) ?_ ?_ h
  · intro cs h
    obtain ⟨rest, hahead⟩ := exists_sign_ahead h (by simp [signs])
    have hdash : ∀ ds, mark ('-' :: ds) cs = none := fun ds => mark_other hahead.skip (by decide)
    simp [furtherEnd, hdash]
  · intro n names cs h
    obtain ⟨rest, harrow⟩ := exists_sign_ahead h (by simp [signs])
    obtain ⟨behind, hname⟩ :
        ∃ behind, Ahead (method n.text) (Trail.steps names ++ semicolon :: ws) rest behind :=
      exists_name_ahead n.isPlainWord harrow.behind
    have hskip : skipGap cs = '-' :: '>' :: rest := harrow.skip
    have hlong : mark ['-', '-'] cs = none := by simp [mark, hskip, List.isPrefixOf]
    have hplain : mark ['-', '>'] cs = some rest := mark_word harrow
    have hend : endpoint clause rest = some (.node n.text, behind) := by
      obtain ⟨w, more, hwords, hw⟩ := exists_stop names ws
      exact endpoint_name clause n.isPlainWord (hwords ▸ hname) hw
    refine ⟨behind, ?_, Nat.lt_trans hname.fewer harrow.fewer, hname.behind⟩
    simp [furtherEnd, hlong, hplain, hend]

/-! ## Clauses -/

theorem defaults_name (hn : IsPlainWord n.toList) (h : Ahead (method n) (w :: ws) cs rest) (hw : w ∈ stops) :
    defaults cs = none := by
  obtain ⟨behind, hbehind⟩ := exists_sign_ahead h.behind (mem_signs_of_mem_stops hw)
  unfold defaults
  cases hfind : ["graph", "node", "edge"].findSome? fun word => (keyword word cs).map fun rest => (word, rest) with
  | none => rfl
  | some found =>
    obtain ⟨key, hkey, hfound⟩ := List.exists_of_findSome?_eq_some hfind
    obtain ⟨after, hafter, rfl⟩ := Option.map_eq_some_iff.mp hfound
    have hmem : key ∈ ["graph", "node", "edge", "subgraph"] := by
      simp only [List.mem_cons, List.not_mem_nil, or_false] at hkey ⊢
      tauto
    obtain ⟨back, hback, rfl⟩ := exists_of_keyword hn h hw hmem hafter
    have hbracket : mark ['['] (back ++ rest) = none := by
      cases back with
      | nil => exact mark_stop hbehind hw [] (by decide)
      | cons c back =>
        apply mark_other (skipGap_append (List.cons_ne_nil c back) hback)
        rintro rfl
        exact absurd (hback _ (List.mem_cons_self ..)) (by decide)
    simp [attributes, bracketed, hbracket]

theorem optionalAttributes_stop (h : Ahead w ws cs rest) (hw : w ∈ stops) :
    optionalAttributes cs = (false, cs) := by
  have hbracket : mark ['['] cs = none := mark_stop h hw [] (by decide)
  simp [optionalAttributes, attributes, bracketed, hbracket]

theorem skipSemicolon_semicolon (h : Ahead semicolon ws cs rest) : skipSemicolon cs = rest := by
  have hmark : mark [';'] cs = some rest := mark_word h
  simp [skipSemicolon, hmark]

theorem assignment_name (hn : IsPlainWord n.toList) (h : Ahead (method n) (w :: ws) cs rest) (hw : w ∈ stops) :
    assignment cs = none := by
  obtain ⟨behind, hbehind⟩ := exists_sign_ahead h.behind (mem_signs_of_mem_stops hw)
  have hequals : mark ['='] rest = none := mark_stop hbehind hw [] (by decide)
  simp [assignment, name_name hn h (mem_signs_of_mem_stops hw), hequals]

/-- What the trail says: a node, or edges between nodes. -/
def trailClause (t : Trail) : Clause :=
  match t.more with
  | [] => .node t.first.text false
  | more => .edges (.node t.first.text :: more.map fun n => .node n.text) false

/-- A trail is read as its clause, and the semicolon behind it is passed. -/
theorem exists_clause (t : Trail) (depth : Nat) (h : LaidOut (t.words ++ ws) cs)
    (hws : ∀ cs, LaidOut ws cs → skipSemicolon cs = cs) :
    ∃ rest, clause (depth + 1) cs = some (trailClause t, rest) ∧ (skipSemicolon rest).length < cs.length ∧
      LaidOut ws (skipSemicolon rest) := by
  obtain ⟨first, more⟩ := t
  have hfirst := first.isPlainWord
  rw [Trail.words, List.cons_append, List.append_assoc] at h
  obtain ⟨rest, hname⟩ := exists_name_ahead hfirst h
  obtain ⟨w, behind, hwords, hw⟩ := exists_stop more ws
  have hequals : assignment cs = none := assignment_name hfirst (hwords ▸ hname) hw
  have hend : endpoint (clause depth) cs = some (.node first.text, rest) :=
    endpoint_name _ hfirst (hwords ▸ hname) hw
  obtain ⟨last, hmany, hlength, hlast⟩ := exists_furtherEnds (clause depth) hname.behind
  cases more with
  | nil =>
    obtain ⟨behind, hsemicolon⟩ := exists_sign_ahead hname.behind (by simp [signs])
    refine ⟨behind, ?_, ?_, ?_⟩
    · simp [clause, hequals, endClause, hend, hmany, defaults_name hfirst hname (by simp [stops]),
        optionalAttributes_stop hsemicolon (by simp [stops]), skipSemicolon_semicolon hsemicolon, trailClause]
    · rw [hws behind hsemicolon.behind]
      exact Nat.lt_trans hsemicolon.fewer hname.fewer
    · rw [hws behind hsemicolon.behind]
      exact hsemicolon.behind
  | cons m more =>
    obtain ⟨behind, hsemicolon⟩ := exists_sign_ahead hlast (by simp [signs])
    refine ⟨last, ?_, ?_, ?_⟩
    · simp [clause, hequals, endClause, hend, hmany, optionalAttributes_stop hsemicolon (by simp [stops]),
        trailClause]
    · rw [skipSemicolon_semicolon hsemicolon]
      have hrest := hname.fewer
      have hbehind := hsemicolon.fewer
      omega
    · rw [skipSemicolon_semicolon hsemicolon]
      exact hsemicolon.behind

/-! ## Blocks -/

/-- At the closing brace there is no clause. -/
theorem clause_rightBrace (depth : Nat) (h : Ahead rightBrace ws cs rest) : clause (depth + 1) cs = none := by
  have hname : name cs = none := name_sign h (by simp [signs])
  have hopen : mark ['\x7b'] cs = none := mark_other h.skip (by decide)
  have hkeyword : keyword "subgraph" cs = none := by
    have hskip : skipGap cs = '\x7d' :: rest := h.skip
    rw [keyword, hskip]
    rfl
  have hblock : block (clause depth) cs = .error ⟨.openingBrace, skipGap cs, 0⟩ := by rw [block, hopen]
  simp [clause, assignment, endClause, endpoint, group, nodeName, hname, hkeyword, hblock, Except.toOption]

/-- Behind a trail stands another one, or the closing brace. -/
theorem skipSemicolon_body {trails : List Trail} (h : LaidOut (trails.flatMap Trail.words ++ [rightBrace]) cs) :
    skipSemicolon cs = cs := by
  suffices hmark : mark [';'] cs = none by simp [skipSemicolon, hmark]
  cases trails with
  | nil =>
    obtain ⟨rest, hahead⟩ := exists_sign_ahead h (by simp [signs])
    exact mark_other hahead.skip (by decide)
  | cons t trails =>
    obtain ⟨rest, hahead⟩ := exists_name_ahead t.first.isPlainWord h
    exact mark_name t.first.isPlainWord hahead [] (by decide)

/-- A block is its clauses between braces. -/
theorem block_braced {clause : Reader Clause} {inner last : List Char} {clauses : List Clause}
    (hopening : mark ['\x7b'] cs = some inner)
    (hclauses : many (fun cs => clause cs >>= fun r => pure (r.1, skipSemicolon r.2)) inner = (clauses, last))
    (hclosing : mark ['\x7d'] last = some rest) : block clause cs = .ok (clauses, skipSemicolon rest) := by
  rw [block, hopening]
  dsimp only
  rw [hclauses]
  dsimp only
  rw [hclosing]

theorem exists_block (depth : Nat) {trails : List Trail}
    (h : LaidOut (leftBrace :: (trails.flatMap Trail.words ++ [rightBrace])) cs) :
    ∃ rest, block (clause (depth + 1)) cs = .ok (trails.map trailClause, skipSemicolon rest) ∧ LaidOut [] rest := by
  obtain ⟨inner, hopen⟩ := exists_sign_ahead h (by simp [signs])
  have hclauses := exists_many (p := fun cs => clause (depth + 1) cs >>= fun r => pure (r.1, skipSemicolon r.2))
    trailClause (fun trails cs => LaidOut (trails.flatMap Trail.words ++ [rightBrace]) cs) ?_ ?_ hopen.behind
  · obtain ⟨last, hmany, -, hlast⟩ := hclauses
    obtain ⟨rest, hclose⟩ := exists_sign_ahead hlast (by simp [signs])
    exact ⟨rest, block_braced (mark_word hopen) hmany (mark_word hclose), hclose.behind⟩
  · intro cs h
    obtain ⟨rest, hclose⟩ := exists_sign_ahead h (by simp [signs])
    rw [clause_rightBrace depth hclose]
    rfl
  · intro t trails cs h
    rw [List.flatMap_cons, List.append_assoc] at h
    obtain ⟨rest, hclause, hfewer, hbehind⟩ := exists_clause t depth h fun _ => skipSemicolon_body
    refine ⟨skipSemicolon rest, ?_, hfewer, hbehind⟩
    rw [hclause]
    rfl

end

/-! ## Graphs -/

/-- A digraph with a name is what its block is. -/
theorem written_digraph {n : String} {cs front inner : List Char} (hskip : skipGap cs = "digraph".toList ++ front)
    (hname : name front = some (n.toList, inner)) :
    written cs = (block (clause inner.length) inner).map fun read => (⟨true, n, read.1⟩, read.2) := by
  have hstrict : keyword "strict" cs = none := by
    rw [keyword, hskip]
    rfl
  have hdirected : keyword "digraph" cs = some front := by
    rw [keyword, hskip]
    apply dropKeyword_self
    rw [← List.forall_iff_forall_mem]
    decide
  simp [written, hstrict, hdirected, hname]

theorem exists_written_trails {n : PlainName} {trails : List Trail} {cs : List Char}
    (h : LaidOut (graphWords n trails) cs) : ∃ rest,
      written cs = .ok (⟨true, n.text, trails.map trailClause⟩, skipSemicolon rest) ∧ LaidOut [] rest := by
  obtain ⟨front, hdigraph⟩ := exists_ahead h ⟨_, _, rfl, by decide⟩
  obtain ⟨inner, hname⟩ := exists_name_ahead n.isPlainWord hdigraph.behind
  have hread : name front = some (n.text.toList, inner) := name_name n.isPlainWord hname (by simp [signs])
  -- The block opens with a brace, so some depth is left for its clauses.
  obtain ⟨depth, hdepth⟩ : ∃ depth, inner.length = depth + 1 := by
    obtain ⟨rest, hopen⟩ := exists_sign_ahead hname.behind (by simp [signs])
    exact Nat.exists_eq_add_one.mpr (Nat.zero_lt_of_lt hopen.fewer)
  obtain ⟨rest, hblock, hrest⟩ := exists_block depth hname.behind
  refine ⟨rest, ?_, hrest⟩
  rw [written_digraph hdigraph.skip hread, hdepth, hblock]
  rfl

theorem skipGap_blank {cs : List Char} (h : LaidOut [] cs) : skipGap cs = [] := by
  cases h with
  | nil hgap =>
    rw [← List.append_nil cs, skipGap_spaces hgap]
    rfl

/-- There is no graph in white space. -/
theorem written_blank {cs : List Char} (h : LaidOut [] cs) : (written cs).toOption = none := by
  have hkeyword : ∀ key ∈ ["strict", "digraph", "graph"], keyword key cs = none := by
    intro key hkey
    rw [keyword, skipGap_blank h]
    simp only [List.mem_cons, List.not_mem_nil, or_false] at hkey
    rcases hkey with rfl | rfl | rfl <;> rfl
  simp [written, hkeyword, Except.toOption]

/-- **Trails.** The digraph of some trails is read as one graph, which has a clause for each of them. -/
theorem graphs_trails {n : PlainName} {trails : List Trail} {text : String}
    (h : LaidOut (graphWords n trails) text.toList) :
    graphs text = .ok [⟨true, n.text, trails.map trailClause⟩] := by
  obtain ⟨rest, hwritten, hrest⟩ := exists_written_trails h
  have hsemicolon : skipSemicolon rest = rest := by
    simp [skipSemicolon, mark, skipGap_blank hrest]
  rw [graphs, hwritten, hsemicolon]
  dsimp only
  rw [many, written_blank hrest]

end Digraph

end Typestate
