import Mathlib.Data.List.Infix
import Mathlib.Tactic.MkIffOfInductiveProp
import Typestate.Code.Item
import Typestate.Grammar.Statement
import Typestate.Proofs.Token.Word
import Typestate.Proofs.Token.Words

/-!
How statements are written: which of them can be, and as which words, whatever the white space between.
There may be one more dash at each end of an arrow that says something, and a character of a string may
be written with a backslash or without. Every statement that can be written has such words, and each word
is read as it is meant (`Spelled.legible`).
-/

namespace Typestate

/-! ## Statements without their places -/

def NodeRef.withoutSpan (r : NodeRef) : NodeRef := { r with span := none }

def Arrow.withoutSpan (a : Arrow) : Arrow := { a with span := none }

/-- An arrow and the position behind it, without their places. -/
def stepWithoutSpans (step : Arrow × NodeGroup) : Arrow × NodeGroup :=
  (step.1.withoutSpan, step.2.map NodeRef.withoutSpan)

def Chain.withoutSpans (c : Chain) : Chain :=
  { c with first := c.first.map NodeRef.withoutSpan, rest := c.rest.map stepWithoutSpans }

def Statement.withoutSpans : Statement → Statement
  | .node ref => .node ref.withoutSpan
  | .chain c => .chain c.withoutSpans

def Document.withoutSpans (d : Document) : Document :=
  { d with statements := d.statements.map Statement.withoutSpans, span := none }

/-! ## What can be written -/

/-- The name of a node as it is kept, which is read as an identifier. -/
@[mk_iff]
structure Identifier.NodeName (name : String) : Prop where
  canonical : Identifier.canonical name = .ok name
  reads : ReadAs name [(.identifier, name.toList)]

/-- The name of a method, which is read as an identifier or a keyword. -/
def Identifier.MethodName (name : String) : Prop :=
  ∃ kind, kind.isName = true ∧ ReadAs name [(kind, name.toList)]

/-- Documentation that can be written behind three slashes. -/
@[mk_iff]
structure LineDoc (fragment : String) : Prop where
  newline : '\n' ∉ fragment.toList
  slash : fragment.toList.head? ≠ some '/'
  returns : fragment.toList.getLast? ≠ some '\r'

/-- Documentation that can be written on a line of its own in a string. -/
def InlineDoc (fragment : String) : Prop := ∃ line : String, fragment = " " ++ line ∧ '\n' ∉ line.toList

/-- The brackets of some tokens close one another, and outside of them there is nothing that ends a type,
an arrow directly behind a closing parenthesis left aside. -/
structure Enclosed (kinds : List TokenKind) : Prop where
  nonempty : kinds ≠ []
  balanced : kinds.countP TokenKind.isClosing = kinds.countP TokenKind.isOpening
  closing : ∀ front, front <+: kinds → front.countP TokenKind.isClosing ≤ front.countP TokenKind.isOpening
  stop : ∀ front kind back, kinds = front ++ kind :: back → kind ∈ Parser.typeStops →
    front.countP TokenKind.isClosing = front.countP TokenKind.isOpening →
      kind = .arrow ∧ front.getLast? = some .rightParen

/-- The elements of a list can be looked up one after the other, each with those in front of it. -/
theorem forall_split_iff {α : Type} {l : List α} {P : List α → α → Prop} :
    (∀ front a back, l = front ++ a :: back → P front a) ↔
      ∀ i < l.length, ∀ a ∈ l[i]?, P (l.take i) a := by
  constructor
  · intro h i hi a ha
    obtain ⟨_, rfl⟩ := List.getElem?_eq_some_iff.mp ha
    refine h _ _ (l.drop (i + 1)) ?_
    rw [← List.drop_eq_getElem_cons hi, List.take_append_drop]
  · rintro h front a back rfl
    have hhere := h front.length (by simp) a (by simp)
    rwa [List.take_left] at hhere

/-- Brackets and stops can be looked up one after the other. -/
theorem enclosed_iff (kinds : List TokenKind) : Enclosed kinds ↔
    kinds ≠ [] ∧ kinds.countP TokenKind.isClosing = kinds.countP TokenKind.isOpening ∧
    (∀ front ∈ kinds.inits, front.countP TokenKind.isClosing ≤ front.countP TokenKind.isOpening) ∧
    ∀ i < kinds.length, ∀ kind ∈ kinds[i]?, kind ∈ Parser.typeStops →
      (kinds.take i).countP TokenKind.isClosing = (kinds.take i).countP TokenKind.isOpening →
        kind = .arrow ∧ (kinds.take i).getLast? = some .rightParen := by
  constructor
  · rintro ⟨hne, hbalanced, hclosing, hstop⟩
    exact ⟨hne, hbalanced, fun front hfront => hclosing front ((List.mem_inits ..).mp hfront),
      forall_split_iff.mp hstop⟩
  · rintro ⟨hne, hbalanced, hclosing, hstop⟩
    exact ⟨hne, hbalanced, fun front hfront => hclosing front ((List.mem_inits ..).mpr hfront),
      forall_split_iff.mpr hstop⟩

instance (kinds : List TokenKind) : Decidable (Enclosed kinds) :=
  decidable_of_iff _ (enclosed_iff kinds).symm

/-- A type as it is kept: single spaces between its tokens, no strings, no comments, no stop outside of
brackets. -/
@[mk_iff]
structure Payload (ty : String) : Prop where
  normal : Text.normalizeString ty = ty
  quote : '"' ∉ ty.toList
  slash : '/' ∉ ty.toList
  reads : ∃ cs, ReadAs ty cs ∧ Enclosed (cs.map (·.1))

/-- What an arrow carries can be written. -/
def ArrowForm.Writable : ArrowForm → Prop
  | .plain => True
  | .long => True
  | .documented docs => docs ≠ [] ∧ ∀ d ∈ docs, InlineDoc d
  | .named method docs => Identifier.MethodName method ∧ ∀ d ∈ docs, InlineDoc d

/-- One or more names, and nothing else. -/
@[mk_iff]
structure NodeGroup.Writable (g : NodeGroup) : Prop where
  nonempty : g ≠ []
  names : ∀ r ∈ g, Identifier.NodeName r.name
  bare : ∀ r ∈ g, r.ty = none ∧ r.docs = []

/-- An arrow and the position behind it, which is one node if the arrow has a name. -/
@[mk_iff]
structure StepWritable (step : Arrow × NodeGroup) : Prop where
  form : step.1.form.Writable
  targets : NodeGroup.Writable step.2
  named : step.1.isNamed = true → NodeGroup.isMany step.2 = false

/-- A position and one or more steps from it. -/
@[mk_iff]
structure Chain.Writable (c : Chain) : Prop where
  docs : ∀ d ∈ c.docs, LineDoc d
  first : NodeGroup.Writable c.first
  nonempty : c.rest ≠ []
  steps : ∀ step ∈ c.rest, StepWritable step

@[mk_iff]
structure NodeRef.Writable (r : NodeRef) : Prop where
  docs : ∀ d ∈ r.docs, LineDoc d
  name : Identifier.NodeName r.name
  ty : ∀ ty ∈ r.ty, Payload ty

def Statement.Writable : Statement → Prop
  | .node ref => ref.Writable
  | .chain c => c.Writable

/-! ## Names -/

/-- A name is one lexeme. -/
theorem first_of_readAs {name : String} {kind : TokenKind} (h : ReadAs name [(kind, name.toList)])
    (hname : kind.isName = true) : kind = .ofWord name.toList ∧ ∃ c more, name.toList = c :: more ∧
      Lexeme.first c more = .ok ⟨some (kind, name.toList), more.length⟩ := by
  obtain ⟨ps, tail, hps, -, htext, hcontents⟩ := readAs_iff_spells.mp h
  have hmem : (kind, name.toList) ∈ Piece.contents ps := by rw [hcontents]; exact List.mem_cons_self ..
  obtain ⟨p, hp, htoken⟩ := List.mem_filterMap.mp hmem
  obtain ⟨front, back, rfl⟩ := List.append_of_mem hp
  obtain ⟨-, ⟨-, c, more, hptext, hfirst⟩, -⟩ := reads_append.mp hps
  rw [htoken] at hfirst
  obtain ⟨hvalue, hkind⟩ := Lexeme.value_of_first hfirst hname
  -- The lexeme is all of the text.
  have hnone : Piece.spell back ++ tail = [] := by
    have hlength := congrArg List.length htext
    rw [Piece.spell_append, Piece.spell_cons, hptext, ← hvalue] at hlength
    simp only [List.length_append] at hlength
    refine List.eq_nil_of_length_eq_zero ?_
    rw [List.length_append]
    omega
  rw [hnone, List.append_nil] at hfirst
  exact ⟨hkind, c, more, hvalue, hfirst⟩

/-! ## Deciding what can be written -/

instance (name : String) : Decidable (Identifier.NodeName name) :=
  decidable_of_iff _ (Identifier.nodeName_iff name).symm

instance (fragment : String) : Decidable (LineDoc fragment) :=
  decidable_of_iff _ (lineDoc_iff fragment).symm

theorem inlineDoc_iff (fragment : String) :
    InlineDoc fragment ↔ fragment.toList.head? = some ' ' ∧ '\n' ∉ fragment.toList := by
  constructor
  · rintro ⟨line, rfl, hline⟩
    rw [String.toList_append]
    exact ⟨rfl, fun hmem => (List.mem_cons.mp hmem).elim (by decide) hline⟩
  · rintro ⟨hspace, hnewline⟩
    obtain ⟨line, hline⟩ := List.head?_eq_some_iff.mp hspace
    refine ⟨String.ofList line, ?_, ?_⟩
    · rw [← String.toList_inj, String.toList_append]
      exact hline.trans (congrArg (' ' :: ·) String.toList_ofList.symm)
    · rw [String.toList_ofList]
      exact fun hmem => hnewline (hline ▸ List.mem_cons_of_mem _ hmem)

instance (fragment : String) : Decidable (InlineDoc fragment) :=
  decidable_of_iff _ (inlineDoc_iff fragment).symm

instance (ty : String) : Decidable (∃ cs, ReadAs ty cs ∧ Enclosed (cs.map (·.1))) :=
  match h : ({ text := ty } : Source).tokenize with
  | .ok tokens => decidable_of_iff (Enclosed ((tokens.dropLast.map Token.content).map (·.1)))
      ⟨fun henclosed => ⟨_, ⟨tokens, h, rfl⟩, henclosed⟩, fun ⟨_, ⟨tokens', htokens, hcs⟩, henclosed⟩ => by
        rw [h] at htokens
        cases htokens
        rwa [hcs]⟩
  | .error _ => isFalse fun ⟨_, ⟨_, htokens, _⟩, _⟩ => by
      rw [h] at htokens
      cases htokens

instance (ty : String) : Decidable (Payload ty) := decidable_of_iff _ (payload_iff ty).symm

theorem Identifier.methodName_iff (name : String) :
    Identifier.MethodName name ↔ ReadAs name [(.ofWord name.toList, name.toList)] := by
  constructor
  · rintro ⟨kind, hname, hread⟩
    rwa [← (first_of_readAs hread hname).1]
  · intro hread
    exact ⟨_, TokenKind.isName_ofWord _, hread⟩

instance (name : String) : Decidable (Identifier.MethodName name) :=
  decidable_of_iff _ (Identifier.methodName_iff name).symm

instance (form : ArrowForm) : Decidable form.Writable :=
  match form with
  | .plain => isTrue trivial
  | .long => isTrue trivial
  | .documented docs => inferInstanceAs (Decidable (docs ≠ [] ∧ ∀ d ∈ docs, InlineDoc d))
  | .named method docs =>
    inferInstanceAs (Decidable (Identifier.MethodName method ∧ ∀ d ∈ docs, InlineDoc d))

instance (g : NodeGroup) : Decidable g.Writable := decidable_of_iff _ (NodeGroup.writable_iff g).symm

instance (step : Arrow × NodeGroup) : Decidable (StepWritable step) :=
  decidable_of_iff _ (stepWritable_iff step).symm

instance (c : Chain) : Decidable c.Writable := decidable_of_iff _ (Chain.writable_iff c).symm

instance (r : NodeRef) : Decidable r.Writable := decidable_of_iff _ (NodeRef.writable_iff r).symm

instance (s : Statement) : Decidable s.Writable :=
  match s with
  | .node r => inferInstanceAs (Decidable r.Writable)
  | .chain c => inferInstanceAs (Decidable c.Writable)

/-! ## Words -/

/-- A value, and a way to write it in a string. -/
inductive Escaped : List Char → List Char → Prop
  | nil : Escaped [] []
  | char {c : Char} {value text : List Char} (hquote : c ≠ '"') (hslash : c ≠ '\\')
    (hrest : Escaped value text) : Escaped (c :: value) (c :: text)
  | escape {e v : Char} {value text : List Char} (he : Lexeme.unescape e = some v)
    (hrest : Escaped value text) : Escaped (v :: value) ('\\' :: e :: text)

namespace Word

def doc (fragment : String) : Word :=
  .lexeme ('/' :: '/' :: '/' :: fragment.toList) (.doc, fragment.toList)

def identifier (name : String) : Word := .lexeme name.toList (.identifier, name.toList)

def method (name : String) : Word := .lexeme name.toList (.ofWord name.toList, name.toList)

def quoted (text value : List Char) : Word := .lexeme ('"' :: (text ++ ['"'])) (.string, value)

def mark (kind : TokenKind) (c : Char) : Word := .lexeme [c] (kind, [c])

def colon : Word := mark .colon ':'

def semicolon : Word := mark .semicolon ';'

def ampersand : Word := mark .ampersand '&'

def minus : Word := mark .minus '-'

def leftBrace : Word := mark .leftBrace '\x7b'

def rightBrace : Word := mark .rightBrace '\x7d'

def arrow : Word := .lexeme ['-', '>'] (.arrow, ['-', '>'])

end Word

open Word

/-- Names with ampersands between. -/
def groupWords : NodeGroup → List Word
  | [] => []
  | r :: rs => identifier r.name :: rs.flatMap fun r => [ampersand, identifier r.name]

/-- The lines of inline documentation, each without the space in front. -/
def inlineText (docs : List String) : List Char :=
  List.intercalate ['\n'] (docs.map fun d => d.toList.drop 1)

/-- An arrow that says something, with one dash or two at its ends. -/
def labelled (front back : Bool) (label : List Word) : List Word :=
  minus :: ((if front then [minus] else []) ++ (label ++ ((if back then [minus] else []) ++ [arrow])))

/-- The arrow can be written as the words. -/
inductive ArrowForm.Spelled : ArrowForm → List Word → Prop
  | plain : Spelled .plain [arrow]
  | long : Spelled .long [minus, arrow]
  | documented {docs : List String} {text : List Char} (front back : Bool)
    (htext : Escaped (inlineText docs) text) :
    Spelled (.documented docs) (labelled front back [quoted text (inlineText docs)])
  | named (name : String) (front back : Bool) :
    Spelled (.named name []) (labelled front back [method name])
  | both {name : String} {docs : List String} {text : List Char} (front back : Bool) (hdocs : docs ≠ [])
    (htext : Escaped (inlineText docs) text) :
    Spelled (.named name docs) (labelled front back [method name, quoted text (inlineText docs)])

/-- The arrows and positions of a chain can be written as the words. -/
inductive StepsSpelled : List (Arrow × NodeGroup) → List Word → Prop
  | nil : StepsSpelled [] []
  | cons {a : Arrow} {g : NodeGroup} {rest : List (Arrow × NodeGroup)} {ws ws' : List Word}
    (harrow : a.form.Spelled ws) (hrest : StepsSpelled rest ws') :
    StepsSpelled ((a, g) :: rest) (ws ++ (groupWords g ++ ws'))

/-- The statement can be written as the words. -/
inductive Statement.Spelled : Statement → List Word → Prop
  | node {r : NodeRef} (hty : r.ty = none) :
    Spelled (.node r) (r.docs.map doc ++ [identifier r.name, semicolon])
  | typed {r : NodeRef} {ty : String} {cs : List Content} (hty : r.ty = some ty) (hcs : ReadAs ty cs) :
    Spelled (.node r) (r.docs.map doc ++ [identifier r.name, colon, .block ty.toList cs, semicolon])
  | chain {c : Chain} {ws : List Word} (hrest : StepsSpelled c.rest ws) :
    Spelled (.chain c) (c.docs.map doc ++ (groupWords c.first ++ (ws ++ [semicolon])))

/-- The statements can be written as the words. -/
inductive Spelled : List Statement → List Word → Prop
  | nil : Spelled [] []
  | cons {s : Statement} {statements : List Statement} {ws ws' : List Word} (hs : s.Spelled ws)
    (hrest : Spelled statements ws') : Spelled (s :: statements) (ws ++ ws')

/-! ## Reading words -/

/-- The tokens of a type are the only ones that it has. -/
theorem Payload.enclosed {ty : String} {cs : List Content} (h : Payload ty) (hcs : ReadAs ty cs) :
    Enclosed (cs.map (·.1)) := by
  obtain ⟨_, ⟨tokens, htokens, rfl⟩, henclosed⟩ := h.reads
  obtain ⟨tokens', htokens', rfl⟩ := hcs
  rw [htokens] at htokens'
  cases htokens'
  exact henclosed

namespace Word

theorem legible_identifier {name : String} (h : ReadAs name [(.identifier, name.toList)]) :
    (identifier name).Legible := (first_of_readAs h rfl).2

theorem legible_method {name : String} (h : Identifier.MethodName name) : (method name).Legible := by
  obtain ⟨kind, hname, hread⟩ := h
  obtain ⟨rfl, hfirst⟩ := first_of_readAs hread hname
  exact hfirst

theorem legible_doc {fragment : String} (h : LineDoc fragment) : (doc fragment).Legible := by
  have hline : '\n' ∉ '/' :: fragment.toList := by simpa using h.newline
  have hfirst := Lexeme.first_line hline
  have hslash : (fragment.toList.head? == some '/') = false := by simpa using h.slash
  rw [Lexeme.isDocLine_slash, hslash, Bool.not_false, if_pos rfl, List.drop_succ_cons, List.drop_zero,
    dropReturns_of_last] at hfirst
  · exact ⟨_, _, rfl, hfirst⟩
  · rintro d hd rfl
    exact h.returns hd

theorem legible_mark {kind : TokenKind} {c : Char} (h : TokenKind.ofPunctuation c = some kind) :
    (mark kind c).Legible := ⟨c, [], rfl, Lexeme.first_punctuation h⟩

theorem legible_colon : colon.Legible := by
  refine ⟨':', [], rfl, ?_⟩
  rw [Lexeme.first_other (by decide) (by decide) (by decide), if_neg (by decide), if_neg (by simp),
    if_neg (by decide)]
  rfl

theorem legible_minus : minus.Legible := by
  refine ⟨'-', [], rfl, ?_⟩
  rw [Lexeme.first_other (by decide) (by decide) (by decide), if_neg (by decide), if_neg (by simp),
    if_neg (by decide)]
  rfl

theorem legible_arrow : arrow.Legible := by
  refine ⟨'-', ['>'], rfl, ?_⟩
  rw [Lexeme.first_other (by decide) (by decide) (by decide), if_neg (by decide), if_neg (by simp),
    if_neg (by decide)]
  rfl

/-- What is written in a string is read as the value. -/
theorem stringBody_of_escaped {value text : List Char} (h : Escaped value text) :
    Lexeme.stringBody false (text ++ ['"']) = .closed value [] := by
  induction h with
  | nil => exact Lexeme.stringBody_quote
  | char hquote hslash hrest ih =>
    rw [List.cons_append, Lexeme.stringBody_char rfl hquote hslash, ih]
    rfl
  | escape he hrest ih =>
    rw [List.cons_append, List.cons_append, Lexeme.stringBody_escape he, ih]
    rfl

theorem legible_quoted {value text : List Char} (h : Escaped value text) : (quoted text value).Legible := by
  have hfirst := Lexeme.first_string (stringBody_of_escaped h) []
  rw [List.append_nil] at hfirst
  exact ⟨_, _, rfl, hfirst⟩

theorem legible_payload {ty : String} {cs : List Content} (h : Payload ty) (hcs : ReadAs ty cs) :
    (block ty.toList cs).Legible := by
  refine ⟨?_, h.quote, h.slash, ?_, readAs_iff_spells.mp hcs⟩
  · have hnormal := congrArg String.toList h.normal
    rwa [Text.normalizeString, String.toList_ofList] at hnormal
  · rintro rfl
    exact (h.enclosed hcs).nonempty rfl

end Word

section
variable {ws : List Word}

theorem legible_groupWords {g : NodeGroup} (h : g.Writable) : ∀ w ∈ groupWords g, w.Legible := by
  cases g with
  | nil => nofun
  | cons r rs =>
    obtain ⟨hr, hrs⟩ := List.forall_mem_cons.mp h.names
    refine List.forall_mem_cons.mpr ⟨legible_identifier hr.reads, fun w hw => ?_⟩
    obtain ⟨r', hr', hw⟩ := List.mem_flatMap.mp hw
    rcases List.mem_pair.mp hw with rfl | rfl
    · exact legible_mark rfl
    · exact legible_identifier (hrs r' hr').reads

theorem legible_labelled {label : List Word} (h : ∀ w ∈ label, w.Legible) (front back : Bool) :
    ∀ w ∈ labelled front back label, w.Legible := by
  have hdash : ∀ b : Bool, ∀ w ∈ (if b then [minus] else []), w.Legible := by
    intro b w hw
    split at hw
    · rw [List.mem_singleton.mp hw]
      exact legible_minus
    · cases hw
  intro w hw
  rcases List.mem_cons.mp hw with rfl | hw
  · exact legible_minus
  rcases List.mem_append.mp hw with hw | hw
  · exact hdash front w hw
  rcases List.mem_append.mp hw with hw | hw
  · exact h w hw
  rcases List.mem_append.mp hw with hw | hw
  · exact hdash back w hw
  · rw [List.mem_singleton.mp hw]
    exact legible_arrow

theorem ArrowForm.Spelled.legible {form : ArrowForm} (h : form.Spelled ws) (hform : form.Writable) :
    ∀ w ∈ ws, w.Legible := by
  cases h with
  | plain => exact List.forall_mem_singleton.mpr legible_arrow
  | long => exact List.forall_mem_cons.mpr ⟨legible_minus, List.forall_mem_singleton.mpr legible_arrow⟩
  | documented front back htext =>
    exact legible_labelled (List.forall_mem_singleton.mpr (legible_quoted htext)) front back
  | named name front back =>
    exact legible_labelled (List.forall_mem_singleton.mpr (legible_method hform.1)) front back
  | both front back hdocs htext =>
    exact legible_labelled (List.forall_mem_cons.mpr ⟨legible_method hform.1,
      List.forall_mem_singleton.mpr (legible_quoted htext)⟩) front back

theorem StepsSpelled.legible {steps : List (Arrow × NodeGroup)} (h : StepsSpelled steps ws)
    (hsteps : ∀ step ∈ steps, StepWritable step) : ∀ w ∈ ws, w.Legible := by
  induction h with
  | nil => nofun
  | cons harrow hrest ih =>
    obtain ⟨hstep, hsteps⟩ := List.forall_mem_cons.mp hsteps
    refine List.forall_mem_append.mpr ⟨harrow.legible hstep.form, ?_⟩
    exact List.forall_mem_append.mpr ⟨legible_groupWords hstep.targets, ih hsteps⟩

theorem legible_docs {docs : List String} (h : ∀ d ∈ docs, LineDoc d) : ∀ w ∈ docs.map doc, w.Legible := by
  intro w hw
  obtain ⟨d, hd, rfl⟩ := List.mem_map.mp hw
  exact legible_doc (h d hd)

theorem Statement.Spelled.legible {s : Statement} (h : s.Spelled ws) (hs : s.Writable) :
    ∀ w ∈ ws, w.Legible := by
  cases h with
  | node hty =>
    refine List.forall_mem_append.mpr ⟨legible_docs hs.docs, ?_⟩
    exact List.forall_mem_cons.mpr ⟨legible_identifier hs.name.reads,
      List.forall_mem_singleton.mpr (legible_mark rfl)⟩
  | typed hty hcs =>
    refine List.forall_mem_append.mpr ⟨legible_docs hs.docs, ?_⟩
    refine List.forall_mem_cons.mpr ⟨legible_identifier hs.name.reads, ?_⟩
    exact List.forall_mem_cons.mpr ⟨legible_colon, List.forall_mem_cons.mpr
      ⟨legible_payload (hs.ty _ hty) hcs, List.forall_mem_singleton.mpr (legible_mark rfl)⟩⟩
  | chain hrest =>
    refine List.forall_mem_append.mpr ⟨legible_docs hs.docs, ?_⟩
    refine List.forall_mem_append.mpr ⟨legible_groupWords hs.first, ?_⟩
    exact List.forall_mem_append.mpr ⟨hrest.legible hs.steps,
      List.forall_mem_singleton.mpr (legible_mark rfl)⟩

/-- **Words.** The words in which writable statements are spelled can all be read back. -/
theorem Spelled.legible {statements : List Statement} (h : Spelled statements ws)
    (hs : ∀ s ∈ statements, s.Writable) : ∀ w ∈ ws, w.Legible := by
  induction h with
  | nil => nofun
  | cons hspelled hrest ih =>
    obtain ⟨hfirst, hothers⟩ := List.forall_mem_cons.mp hs
    exact List.forall_mem_append.mpr ⟨hspelled.legible hfirst, ih hothers⟩

end

/-! ## Writing -/

theorem escaped_flatMap (value : List Char) : Escaped value (value.flatMap Code.escapeChar) := by
  induction value with
  | nil => exact .nil
  | cons c value ih =>
    rw [List.flatMap_cons]
    by_cases hslash : c = '\\'
    · subst hslash
      exact .escape rfl ih
    by_cases hquote : c = '"'
    · subst hquote
      exact .escape rfl ih
    · have hself : Code.escapeChar c = [c] := by simp [Code.escapeChar, hslash, hquote]
      rw [hself]
      exact .char hquote hslash ih

theorem ArrowForm.exists_spelled (form : ArrowForm) : ∃ ws, form.Spelled ws := by
  cases form with
  | plain => exact ⟨_, .plain⟩
  | long => exact ⟨_, .long⟩
  | documented docs => exact ⟨_, .documented false false (escaped_flatMap _)⟩
  | named name docs =>
    by_cases hdocs : docs = []
    · subst hdocs
      exact ⟨_, .named name false false⟩
    · exact ⟨_, .both false false hdocs (escaped_flatMap _)⟩

theorem exists_stepsSpelled (rest : List (Arrow × NodeGroup)) : ∃ ws, StepsSpelled rest ws := by
  induction rest with
  | nil => exact ⟨_, .nil⟩
  | cons step rest ih =>
    obtain ⟨ws, harrow⟩ := step.1.form.exists_spelled
    obtain ⟨ws', hrest⟩ := ih
    exact ⟨_, .cons harrow hrest⟩

theorem Statement.Writable.exists_spelled {s : Statement} (h : s.Writable) : ∃ ws, s.Spelled ws := by
  cases s with
  | node r =>
    cases hty : r.ty with
    | none => exact ⟨_, .node hty⟩
    | some ty =>
      obtain ⟨cs, hcs, -⟩ := (h.ty ty hty).reads
      exact ⟨_, .typed hty hcs⟩
  | chain c =>
    obtain ⟨ws, hrest⟩ := exists_stepsSpelled c.rest
    exact ⟨_, .chain hrest⟩

theorem exists_spelled {statements : List Statement} (h : ∀ s ∈ statements, s.Writable) :
    ∃ ws, Spelled statements ws := by
  induction statements with
  | nil => exact ⟨_, .nil⟩
  | cons s statements ih =>
    obtain ⟨hs, hothers⟩ := List.forall_mem_cons.mp h
    obtain ⟨ws, hspelled⟩ := hs.exists_spelled
    obtain ⟨ws', hrest⟩ := ih hothers
    exact ⟨_, .cons hspelled hrest⟩

end Typestate
