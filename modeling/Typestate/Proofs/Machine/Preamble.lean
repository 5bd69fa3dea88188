import Typestate.Proofs.Grammar.Attributes
import Typestate.Proofs.Grammar.Derivation
import Typestate.Proofs.Machine.Options

/-!
What stands in front of a machine: documentation, attributes that are kept, and options, in any order and
over any number of attributes. All of them are read, and the options have the same values in whatever order
they stand, unless a key is written twice (`Parser.preamble_outer`).
-/

namespace Typestate

/-! ## Chosen values -/

namespace Config

/-- The option of the setting has its value. -/
def Holds (c : Config) : Setting → Prop
  | .renameMethods on => c.renameMethods = on
  | .entryVis vis => c.entryVis = vis
  | .entryName name => c.entryName = name
  | .trust trust => c.trust = trust
  | .pathToCore path => c.pathToCore = path
  | .mermaid on => c.mermaid = on

/-- What is chosen has the chosen value, and everything else its default. -/
structure Exactly (cs : List Choice) (c : Config) : Prop where
  chosen : ∀ choice ∈ cs, ∀ x ∈ choice.settings, c.Holds x
  others : ∀ x : Setting, x.key ∉ cs.map Choice.key → (c.Holds x ↔ ({} : Config).Holds x)

/-- A setting leaves the options of other keys alone. -/
theorem holds_set {x y : Setting} (h : x.key ≠ y.key) (c : Config) : (c.set y).Holds x ↔ c.Holds x := by
  cases x <;> cases y <;> first | exact Iff.rfl | exact absurd rfl h

theorem holds_update {x : Setting} {ys : List Setting} (h : ∀ y ∈ ys, x.key ≠ y.key) (c : Config) :
    (c.update ys).Holds x ↔ c.Holds x := by
  induction ys generalizing c with
  | nil => exact Iff.rfl
  | cons y ys ih =>
    obtain ⟨hy, hys⟩ := List.forall_mem_cons.mp h
    rw [update, List.foldl_cons]
    exact (ih hys (c.set y)).trans (holds_set hy c)

theorem holds_settings (choice : Choice) (c : Config) :
    ∀ x ∈ choice.settings, (c.update choice.settings).Holds x := by
  cases choice with
  | entry vis name => exact List.forall_mem_cons.mpr ⟨rfl, List.forall_mem_singleton.mpr rfl⟩
  | mermaid on => exact List.forall_mem_singleton.mpr rfl
  | pathToCore path => exact List.forall_mem_singleton.mpr rfl
  | renameMethods on => exact List.forall_mem_singleton.mpr rfl
  | trusted on => exact List.forall_mem_singleton.mpr rfl

theorem key_mem_of_mem_settings {cs : List Choice} {x : Setting} (h : x ∈ cs.flatMap Choice.settings) :
    x.key ∈ cs.map Choice.key := by
  obtain ⟨choice, hchoice, hx⟩ := List.mem_flatMap.mp h
  exact List.mem_map.mpr ⟨choice, hchoice, (Choice.key_of_mem_settings hx).symm⟩

/-- **Values.** The settings of options with different keys make exactly the values that are chosen. -/
theorem exactly_update {cs : List Choice} (hkeys : (cs.map Choice.key).Nodup) :
    Exactly cs (update {} (cs.flatMap Choice.settings)) where
  chosen choice hchoice x hx := by
    obtain ⟨front, back, rfl⟩ := List.append_of_mem hchoice
    rw [List.flatMap_append, List.flatMap_cons, update_append, update_append, holds_update]
    · exact holds_settings choice _ x hx
    · intro y hy heq
      have hback : choice.key ∈ back.map Choice.key := by
        rw [← Choice.key_of_mem_settings hx, heq]
        exact key_mem_of_mem_settings hy
      rw [List.map_append, List.map_cons] at hkeys
      exact (List.nodup_cons.mp (List.nodup_append'.mp hkeys).2.1).1 hback
  others x hx := by
    refine holds_update (fun y hy heq => hx ?_) {}
    rw [heq]
    exact key_mem_of_mem_settings hy

end Config

/-! ## The grammar -/

/-- Something in front of a machine: the text of documentation, that of an attribute that is kept, or the
options of an attribute of the generator. -/
inductive Outer
  | doc (text : String)
  | kept (text : String)
  | options (cs : List Choice)

namespace Outer

def doc? : Outer → Option String
  | doc text => some text
  | _ => none

def kept? : Outer → Option String
  | kept text => some text
  | _ => none

def choices : Outer → List Choice
  | options cs => cs
  | _ => []

/-- What all of it comes to. -/
def preamble (items : List Outer) : Parser.Preamble where
  docs := docLines (items.filterMap doc?)
  attrs := items.filterMap kept?
  settings := (items.flatMap choices).flatMap Choice.settings
  seen := (items.flatMap choices).map Choice.key

end Outer

/-- The tokens of an attribute that is neither the generator's nor documentation. -/
structure KeptTokens (ts : List Token) : Prop extends AttributeTokens ts where
  name : ∀ t ∈ ts[2]?, t.kind = .identifier → t.value ≠ settingsAttribute
  doc : ∀ t ∈ ts[2]?, ∀ u ∈ ts[3]?, t.kind = .identifier → t.value = "doc" → u.kind ≠ .equals

/-- The tokens of something in front of a machine. -/
inductive OuterDerived (src : Source) : List Token → Outer → Prop
  | doc {ts : List Token} {text : String} (h : DocDerived ts text) : OuterDerived src ts (.doc text)
  | kept {ts : List Token} (h : KeptTokens ts) : OuterDerived src ts (.kept (src.textOf ts))
  | options {ts : List Token} {cs : List Choice} {ws : List Word} (h : ChoicesSpelled cs ws)
    (htoks : ts.map Token.content = (attributeWords ws).flatMap Word.contents) :
    OuterDerived src ts (.options cs)

namespace Parser

variable {src : Source} {rest : List Token} {last : Token}

theorem finds_docAttribute {pound opening name equals text closing : Token} (hpound : pound.kind = .pound)
    (hopening : opening.kind = .leftBracket) (hname : name.kind = .identifier)
    (hequals : equals.kind = .equals) (htext : text.kind = .string)
    (hclosing : closing.kind = .rightBracket) :
    Finds src ⟨[pound, opening, name, equals, text, closing] ++ rest, last⟩ docAttribute fun found s' =>
      found = text.value ∧ s' = ⟨rest, last⟩ :=
  finds_expect hpound (finds_expect hopening (finds_expect hname (finds_expect hequals
    (finds_expect htext (finds_expect hclosing (from_pure ⟨rfl, rfl⟩))))))

theorem finds_verbatimAttribute {ts : List Token} (h : AttributeTokens ts) :
    Finds src ⟨ts ++ rest, last⟩ verbatimAttribute fun text s' =>
      text = src.textOf ts ∧ s' = ⟨rest, last⟩ := by
  obtain ⟨first, opening, body, rfl, hfirst, hopening, hclosed⟩ := h.shape
  rw [List.cons_append, List.cons_append]
  refine finds_expect hfirst (finds_expect hopening (from_get ?_))
  dsimp only
  rw [(closeBracket_eq_some_iff.mp hclosed).2.closeBracket_append rest]
  exact from_set (from_read (from_pure ⟨rfl, rfl⟩))

/-- An attribute that is kept is taken for no other. -/
theorem not_startsAttribute {ts : List Token} (h : KeptTokens ts) (rest : List Token)
    (last : Token) :
    (⟨ts ++ rest, last⟩ : TokenStream).startsDocAttribute = false ∧
    (⟨ts ++ rest, last⟩ : TokenStream).startsAttribute settingsAttribute = false := by
  obtain ⟨first, opening, body, rfl, -, -, hclosed⟩ := h.shape
  rcases body with _ | ⟨name, body⟩
  · cases hclosed
  rw [Bool.eq_false_iff, Bool.eq_false_iff]
  constructor
  · intro hstart
    simp only [TokenStream.startsDocAttribute, TokenStream.startsAttribute, Bool.and_eq_true,
      beq_iff_eq] at hstart
    have hkind : name.kind = .identifier := hstart.1.1.2
    rcases body with _ | ⟨sign, body⟩
    · simp [closeBracket, hkind] at hclosed
    · exact h.doc name rfl sign rfl hkind hstart.1.2 hstart.2
  · intro hstart
    simp only [TokenStream.startsAttribute, Bool.and_eq_true, beq_iff_eq] at hstart
    exact h.name name rfl hstart.1.2 hstart.2

/-! ## Reading -/

theorem IsRepeated.append {keys more : List String} {cause : ParseCause} (h : IsRepeated keys cause) :
    IsRepeated (keys ++ more) cause := by
  obtain ⟨key, htwice, rfl⟩ := h
  refine ⟨key, ?_, rfl⟩
  rw [List.count_append]
  omega

theorem append_doc (p : Preamble) (text : String) :
    p.append (Outer.preamble [.doc text]) = { p with docs := p.docs ++ docFragments text } := by
  simp [Preamble.append, Outer.preamble, Outer.doc?, Outer.kept?, Outer.choices, docLines]

theorem append_kept (p : Preamble) (text : String) :
    p.append (Outer.preamble [.kept text]) = { p with attrs := p.attrs ++ [text] } := by
  simp [Preamble.append, Outer.preamble, Outer.doc?, Outer.kept?, Outer.choices, docLines]

theorem preamble_options (cs : List Choice) : Outer.preamble [.options cs] = .ofChoices cs := by
  simp [Preamble.ofChoices, Outer.preamble, Outer.doc?, Outer.kept?, Outer.choices, docLines]

theorem preamble_append (items more : List Outer) :
    Outer.preamble (items ++ more) = (Outer.preamble items).append (Outer.preamble more) := by
  simp [Preamble.append, Outer.preamble, docLines]

/-- A round takes one thing, unless a key is written twice. -/
theorem from_outer {ts : List Token} {item : Outer} (h : OuterDerived src ts item) (p : Preamble)
    (hseen : p.seen.Nodup) :
    From (IsRepeated (p.seen ++ (Outer.preamble [item]).seen)) src ⟨ts ++ rest, last⟩ (preambleRound p)
      fun r s' => (p.seen ++ (Outer.preamble [item]).seen).Nodup ∧ ts ≠ [] ∧
        r = .again (p.append (Outer.preamble [item])) ∧ s' = ⟨rest, last⟩ := by
  have hsame : (p.seen ++ ([] : List String)).Nodup := by rwa [List.append_nil]
  unfold preambleRound
  refine from_current ?_
  cases h with
  | doc h =>
    rw [append_doc]
    cases h with
    | @comment t hkind =>
      have hcurrent : (TokenStream.mk ([t] ++ rest) last).current.kind = .doc := hkind
      rw [hcurrent]
      exact finds_advance (from_pure ⟨hsame, List.cons_ne_nil _ _, rfl, rfl⟩)
    | @assigned pound opening name equals text closing hpound hopening hname hdoc hequals htext hclosing =>
      have hcurrent : (TokenStream.mk ([pound, opening, name, equals, text, closing] ++ rest)
          last).current.kind = .pound := hpound
      rw [hcurrent]
      have hstart : (TokenStream.mk ([pound, opening, name, equals, text, closing] ++ rest)
          last).startsDocAttribute = true := by
        simp [TokenStream.startsDocAttribute, TokenStream.startsAttribute, TokenStream.current,
          TokenStream.peek, hpound, hopening, hname, hdoc, hequals]
      refine from_get (from_ite (fun _ => ?_) fun hother => absurd hstart hother)
      refine (finds_docAttribute hpound hopening hname hequals htext hclosing).allowing.bind ?_
      rintro _ _ ⟨rfl, rfl⟩
      exact from_pure ⟨hsame, List.cons_ne_nil _ _, rfl, rfl⟩
  | kept h =>
    obtain ⟨hdoc, hsettings⟩ := not_startsAttribute h rest last
    obtain ⟨first, opening, body, hts, hfirst, -⟩ := h.shape
    have hne : ts ≠ [] := by
      rw [hts]
      exact List.cons_ne_nil _ _
    have hcurrent : (TokenStream.mk (ts ++ rest) last).current.kind = .pound := by rwa [hts]
    rw [hcurrent, append_kept]
    refine from_get (from_ite (fun hyes => ?_) fun _ => from_ite (fun hyes => ?_) fun _ => ?_)
    · exact absurd (hyes.symm.trans hdoc) (by decide)
    · exact absurd (hyes.symm.trans hsettings) (by decide)
    · refine (finds_verbatimAttribute h.toAttributeTokens).allowing.bind ?_
      rintro _ _ ⟨rfl, rfl⟩
      exact from_pure ⟨hsame, hne, rfl, rfl⟩
  | @options cs ws h htoks =>
    obtain ⟨pound, bracket, name, opening, inner, closing, close, hts, hpound, hbracket, hname, -⟩ :=
      exists_attributeTokens htoks
    have hne : ts ≠ [] := by
      rw [hts]
      exact List.cons_ne_nil _ _
    have hcurrent : (TokenStream.mk (ts ++ rest) last).current.kind = .pound := by rwa [hts]
    have hvalue : name.value = settingsAttribute := value_of_content hname
    have hkind : name.kind = .identifier := kind_of_content hname
    have hdoc : (TokenStream.mk (ts ++ rest) last).startsDocAttribute = false := by
      simp [hts, TokenStream.startsDocAttribute, TokenStream.startsAttribute, TokenStream.current,
        TokenStream.peek, hvalue, settingsAttribute]
    have hsettings : (TokenStream.mk (ts ++ rest) last).startsAttribute settingsAttribute = true := by
      simp [hts, TokenStream.startsAttribute, TokenStream.current, TokenStream.peek, hpound, hbracket,
        hkind, hvalue]
    rw [hcurrent, preamble_options]
    refine from_get (from_ite (fun hyes => ?_) fun _ => from_ite (fun _ => ?_) fun hother => ?_)
    · exact absurd (hyes.symm.trans hdoc) (by decide)
    · refine (from_settings h p hseen htoks).bind ?_
      rintro _ _ ⟨hkeys, rfl, rfl⟩
      exact from_pure ⟨hkeys, hne, rfl, rfl⟩
    · exact absurd hsettings hother

/-- Everything in front of a machine is read up to what is neither documentation nor an attribute, unless a
key is written twice. -/
theorem from_outers {toks : List Token} {items : List Outer} (h : Many (OuterDerived src) toks items)
    (hdoc : (⟨rest, last⟩ : TokenStream).current.kind ≠ .doc)
    (hpound : (⟨rest, last⟩ : TokenStream).current.kind ≠ .pound) (p : Preamble) (hseen : p.seen.Nodup) :
    From (IsRepeated (p.seen ++ (Outer.preamble items).seen)) src ⟨toks ++ rest, last⟩
      (rounds preambleRound p) fun p' s' => (p.seen ++ (Outer.preamble items).seen).Nodup ∧
        p' = p.append (Outer.preamble items) ∧ s' = ⟨rest, last⟩ := by
  induction h generalizing p with
  | nil =>
    have hsame : (p.seen ++ ([] : List String)).Nodup := by rwa [List.append_nil]
    have hresult : p = p.append (Outer.preamble []) := by simp [Preamble.append, Outer.preamble, docLines]
    refine from_rounds_step ?_
    unfold preambleRound
    refine from_current ?_
    split
    · next hkind => exact absurd hkind hdoc
    · next hkind => exact absurd hkind hpound
    · exact from_pure ⟨hsame, hresult, rfl⟩
  | @cons ts more item items hitem _ ih =>
    have happend : Outer.preamble (item :: items) =
        (Outer.preamble [item]).append (Outer.preamble items) := preamble_append [item] items
    have hseen' : ∀ items, (p.append (Outer.preamble [item])).seen ++ (Outer.preamble items).seen =
        p.seen ++ ((Outer.preamble [item]).append (Outer.preamble items)).seen := by
      intro items
      simp [Preamble.append]
    have hresult : p.append (Outer.preamble (item :: items)) =
        (p.append (Outer.preamble [item])).append (Outer.preamble items) := by
      rw [happend]
      simp [Preamble.append]
    rw [List.append_assoc]
    refine from_rounds_step (((from_outer hitem p hseen).allow fun cause hcause => ?_).weaken ?_)
    · rw [happend, ← hseen']
      exact hcause.append
    · rintro _ _ ⟨hkeys, hne, rfl, rfl⟩
      refine ⟨?_, ?_⟩
      · have hlength : 0 < ts.length := List.length_pos_iff.mpr hne
        simp only [List.length_append]
        omega
      · rw [hresult, happend, ← hseen']
        exact ih (p.append (Outer.preamble [item])) hkeys

/-- **Preambles.** Documentation, attributes that are kept, and options, in any order and over any number of
attributes, are read up to what is neither documentation nor an attribute. All documentation and all kept
attributes come out in order. The options have exactly the chosen values, which do not depend on the order.
If a key is written twice, that is the complaint. -/
theorem preamble_outer {toks : List Token} {items : List Outer} {cs : List Choice}
    (h : Many (OuterDerived src) toks items)
    (hdoc : (⟨rest, last⟩ : TokenStream).current.kind ≠ .doc)
    (hpound : (⟨rest, last⟩ : TokenStream).current.kind ≠ .pound)
    (hcs : (items.flatMap Outer.choices).Perm cs) :
    ((cs.map Choice.key).Nodup → ∃ p, preamble src ⟨toks ++ rest, last⟩ = .ok p ⟨rest, last⟩ ∧
      p.docs = docLines (items.filterMap Outer.doc?) ∧ p.attrs = items.filterMap Outer.kept? ∧
      p.config = Config.update {} (cs.flatMap Choice.settings) ∧ p.config.Exactly cs) ∧
    (¬ (cs.map Choice.key).Nodup → ∃ e s', preamble src ⟨toks ++ rest, last⟩ = .error e s' ∧
      ∃ key, 2 ≤ (cs.map Choice.key).count key ∧ e.cause = .repeatedSetting key) := by
  have hread := from_outers h hdoc hpound {} List.nodup_nil
  rw [← preamble_eq] at hread
  have hkeys : (cs.map Choice.key).Perm (([] : List String) ++ (Outer.preamble items).seen) :=
    (hcs.map Choice.key).symm
  constructor
  · intro hnodup
    have hfinds : Finds src ⟨toks ++ rest, last⟩ preamble fun p s' =>
        p = ({} : Preamble).append (Outer.preamble items) ∧ s' = ⟨rest, last⟩ :=
      (hread.allow (not_isRepeated (hkeys.nodup_iff.mp hnodup))).weaken fun _ _ hp => hp.2
    have hconfig : (({} : Preamble).append (Outer.preamble items)).config =
        Config.update {} (cs.flatMap Choice.settings) :=
      Config.update_perm hnodup (hcs.flatMap_right Choice.settings) {}
    refine ⟨_, hfinds.eq_ok, rfl, rfl, hconfig, ?_⟩
    rw [hconfig]
    exact Config.exactly_update hnodup
  · intro htwice
    unfold From at hread
    cases hrun : preamble src ⟨toks ++ rest, last⟩ with
    | ok p s' =>
      rw [hrun] at hread
      exact absurd (hkeys.nodup_iff.mpr hread.1) htwice
    | error e s' =>
      rw [hrun] at hread
      obtain ⟨key, hcount, hcause⟩ := hread
      exact ⟨e, s', rfl, key, by rwa [hkeys.count_eq], hcause⟩

end Parser

/-- Options in two attributes, with documentation and another attribute. -/
def gate : Source := { text := "/** A */ #[fsmentry(mermaid = true,)] #[a] #[fsmentry(entry(pub Go))] M" }

def gateDoc : List Token := [⟨.doc, " A ", 1, 1, 0, 8⟩]

def gateDrawn : List Token :=
  [lineToken .pound "#" 9, lineToken .leftBracket "[" 10, lineToken .identifier "fsmentry" 11,
    lineToken .leftParen "(" 19, lineToken .identifier "mermaid" 20, lineToken .equals "=" 28,
    lineToken .trueWord "true" 30, lineToken .comma "," 34, lineToken .rightParen ")" 35,
    lineToken .rightBracket "]" 36]

def gateKept : List Token :=
  [lineToken .pound "#" 38, lineToken .leftBracket "[" 39, lineToken .identifier "a" 40,
    lineToken .rightBracket "]" 41]

def gateEntry : List Token :=
  [lineToken .pound "#" 43, lineToken .leftBracket "[" 44, lineToken .identifier "fsmentry" 45,
    lineToken .leftParen "(" 53, lineToken .identifier "entry" 54, lineToken .leftParen "(" 59,
    lineToken .pub "pub" 60, lineToken .identifier "Go" 64, lineToken .rightParen ")" 66,
    lineToken .rightParen ")" 67, lineToken .rightBracket "]" 68]

theorem gate_outer :
    let front := gateDoc ++ (gateDrawn ++ (gateKept ++ (gateEntry ++ [])))
    let name := lineToken .identifier "M" 70
    let mark := lineToken .endOfInput "" 71
    gate.tokenize = .ok (front ++ [name, mark]) ∧
    ∃ p, Parser.preamble gate ⟨front ++ [name], mark⟩ = .ok p ⟨[name], mark⟩ ∧
      p.docs = [" A "] ∧ p.attrs = ["#[a]"] ∧
      p.config = { mermaid := true, entryVis := some "pub", entryName := some "Go" } := by
  intro front name mark
  have hdrawn : ChoicesSpelled [.mermaid true] _ := .cons .equals .nil
  have hentry : ChoicesSpelled [.entry .everywhere ⟨"Go", by decide +kernel⟩] _ := .single .inParens
  have hkept : KeptTokens gateKept := {
    shape := ⟨_, _, _, rfl, rfl, rfl, by decide⟩
    name := by decide
    doc := by decide }
  have hfront : Many (OuterDerived gate) front [.doc " A ", .options [.mermaid true],
      .kept (gate.textOf gateKept), .options [.entry .everywhere ⟨"Go", by decide +kernel⟩]] :=
    .cons (.doc (.comment rfl)) (.cons (.options hdrawn (by decide +kernel))
      (.cons (.kept hkept) (.cons (.options hentry (by decide +kernel)) .nil)))
  have hdoc : (TokenStream.mk [name] mark).current.kind ≠ .doc := by decide
  have hpound : (TokenStream.mk [name] mark).current.kind ≠ .pound := by decide
  obtain ⟨p, hp, hdocs, hattrs, hconfig, -⟩ :=
    (Parser.preamble_outer hfront hdoc hpound (List.Perm.refl _)).1 (by decide)
  refine ⟨by decide +kernel, p, hp, ?_, ?_, hconfig⟩
  · rw [hdocs]
    decide +kernel
  · rw [hattrs]
    decide +kernel

end Typestate
