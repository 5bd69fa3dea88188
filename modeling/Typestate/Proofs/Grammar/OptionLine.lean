import Typestate.Proofs.Grammar.Attributes
import Typestate.Proofs.Grammar.MirroredDocument
import Typestate.Proofs.Grammar.RoundTrip
import Typestate.Proofs.Token.Behind

/-!
A line of options in front of a text. The tokens of a text stand behind other text as they are, but for their
places (`Mirror.behind`). So a text with a header that is read as a machine is read as the same one behind the
generator's attribute, with the options that the attribute sets (`Source.parse_optionLine`).
-/

namespace Typestate

/-! ## The same tokens behind other text -/

/-- The text of tokens is the same behind other text. -/
theorem Source.textOf_behind {src src' : Source} {front : List Char}
    (h : src'.text.toList = front ++ src.text.toList) (taken : List Token) :
    src'.textOf (taken.map (Token.behind front)) = src.textOf taken := by
  have hslice : ∀ start stop, src'.slice (front.length + start) (front.length + stop) = src.slice start stop := by
    intro start stop
    rw [slice, slice, h, List.drop_append, List.drop_eq_nil_of_le (by omega), List.nil_append]
    congr 1
    · omega
    · congr 1
      omega
  unfold textOf
  rw [List.head?_map, List.getLast?_map]
  cases taken.head? with
  | none => rfl
  | some first =>
    cases taken.getLast? with
    | none => rfl
    | some last => exact congrArg (fun cs => String.ofList (Text.normalize cs)) (hslice _ _)

/-- The tokens of a text and the same tokens behind other text. -/
def Mirror.behind {src src' : Source} {front : List Char} (h : src'.text.toList = front ++ src.text.toList) :
    Mirror src src' where
  token t t' := t.behind front = t'
  fragment := Eq
  kind := by
    rintro t _ rfl
    rfl
  value := by
    rintro t _ rfl - -
    rfl
  fragments := by
    rintro t _ rfl
    exact List.forall₂_refl _
  indented := congrArg _
  text := by
    intro ts ts' hts
    have hts' : ts' = ts.map (Token.behind front) := by
      rw [← List.forall₂_map_left_iff, List.forall₂_eq_eq_eq] at hts
      exact hts.symm
    rw [hts', Source.textOf_behind h]

namespace Parser

/-! ## Headers behind the attribute -/

section
variable {toks : List Token} {ws : List Word}

/-- No square bracket stands inside of the generator's attribute. -/
theorem attributeTokens_of_options (hws : ∀ w ∈ ws, w.OfOptions)
    (htoks : toks.map Token.content = (attributeWords ws).flatMap Word.contents) : AttributeTokens toks := by
  obtain ⟨pound, bracket, name, opening, inner, closing, close, rfl, hpound, hbracket, hname, hopening, hinner,
    hclosing, hclose⟩ := exists_attributeTokens htoks
  have hbare : Bracketless inner := by
    intro t ht
    have hcontent := List.mem_map_of_mem (f := Token.content) ht
    rw [hinner] at hcontent
    obtain ⟨w, hw, hcontent⟩ := List.mem_flatMap.mp hcontent
    exact (hws w hw).not_bracket _ hcontent
  have hinside : Bracketless (name :: opening :: (inner ++ [closing])) :=
    .cons (kind_of_content hname) (by decide) (.cons hopening (by decide)
      (hbare.append (.cons hclosing (by decide) .nil)))
  have hshape : pound :: bracket :: name :: opening :: (inner ++ [closing, close]) =
      pound :: bracket :: ((name :: opening :: (inner ++ [closing])) ++ [close]) := by simp
  rw [hshape]
  exact attributeTokens_of_bracketless hpound hbracket hinside hclose

/-- A header stays one behind the attribute. -/
theorem startsHeader_attribute (hws : ∀ w ∈ ws, w.OfOptions)
    (htoks : toks.map Token.content = (attributeWords ws).flatMap Word.contents) (s : TokenStream) :
    (⟨toks ++ s.ahead, s.last⟩ : TokenStream).startsHeader = s.startsHeader := by
  unfold TokenStream.startsHeader
  dsimp only
  rw [(attributeTokens_of_options hws htoks).afterPreamble_append]

end

theorem finds_of_run {α : Type} {src : Source} {p : Parser α} {s s' : TokenStream} {a : α}
    {post : α → TokenStream → Prop} (hrun : p src s = .ok a s') (h : post a s') : Finds src s p post := by
  unfold Finds From
  rw [hrun]
  exact h

section
variable {src src' : Source} {m : Mirror src src'} {toks : List Token} {cs : List Choice} {ws : List Word}

/-- What stands in front of a header is read behind the attribute. -/
theorem finds_preamble_attribute {p : Preamble} {s s' s₁ : TokenStream} (hs : m.Streams s s')
    (hcs : ChoicesSpelled cs ws) (hkeys : (cs.map Choice.key).Nodup)
    (htoks : toks.map Token.content = (attributeWords ws).flatMap Word.contents)
    (hrun : preamble src s = .ok p s₁) (hnew : Preamble.NewTo (.ofChoices cs) p) :
    Finds src' ⟨toks ++ s'.ahead, s'.last⟩ preamble fun p' s₁' =>
      Preamble.Mirrors m.fragment (.ofChoices cs) p p' ∧ m.Streams s₁ s₁' := by
  have hsettings : Finds src' ⟨toks ++ s'.ahead, s'.last⟩ (settings {}) fun p s₁ =>
      p = .ofChoices cs ∧ s₁ = s' := finds_settings hcs hkeys htoks
  have hlater : Finds src' s' (rounds preambleRound (.ofChoices cs)) fun p' s₁' =>
      Preamble.Mirrors m.fragment (.ofChoices cs) p p' ∧ m.Streams s₁ s₁' := by
    have hfirst : Preamble.Mirrors m.fragment (.ofChoices cs) {} (.ofChoices cs) :=
      ⟨.nil, rfl, (List.append_nil _).symm, (List.append_nil _).symm⟩
    obtain ⟨p', s₁', hrun', hs₁, hp⟩ := repeats_preamble hfirst s s' p s₁ hs hrun hnew
    exact finds_of_run hrun' ⟨hp, hs₁⟩
  obtain ⟨pound, bracket, name, opening, inner, closing, close, rfl, hpound, hbracket, hname, -⟩ :=
    exists_attributeTokens htoks
  have hstarts : ∀ text, (⟨pound :: bracket :: name :: opening :: (inner ++ [closing, close]) ++
      s'.ahead, s'.last⟩ : TokenStream).startsAttribute text = (settingsAttribute == text) := by
    intro text
    simp [TokenStream.startsAttribute, TokenStream.current, TokenStream.peek, hpound, hbracket,
      kind_of_content hname, value_of_content hname]
  have hkind : (⟨pound :: bracket :: name :: opening :: (inner ++ [closing, close]) ++
      s'.ahead, s'.last⟩ : TokenStream).current.kind = .pound := hpound
  rw [preamble_eq]
  refine from_rounds_step ?_
  unfold preambleRound
  refine from_current ?_
  rw [hkind]
  refine from_get (from_ite (fun hdoc => ?_) fun _ => from_ite (fun _ => ?_) fun hno => ?_)
  · rw [TokenStream.startsDocAttribute, hstarts] at hdoc
    cases hdoc
  · refine hsettings.bind ?_
    rintro _ _ ⟨rfl, rfl⟩
    refine from_pure ⟨?_, hlater⟩
    simp only [List.length_append, List.length_cons]
    omega
  · rw [hstarts, beq_self_eq_true] at hno
    exact absurd rfl hno

/-- A machine with a header is read behind the attribute, with the options that it sets. -/
theorem finds_document_attribute {d : Document} {s s' s₂ : TokenStream} (hs : m.Streams s s')
    (hcs : ChoicesSpelled cs ws) (hkeys : (cs.map Choice.key).Nodup)
    (htoks : toks.map Token.content = (attributeWords ws).flatMap Word.contents)
    (hstarts : s.startsHeader = true)
    (hnew : ∀ p s₁, preamble src s = .ok p s₁ → ∀ c ∈ cs, c.key ∉ p.seen)
    (hrun : document src s = .ok d s₂) :
    Finds src' ⟨toks ++ s'.ahead, s'.last⟩ document fun d' _ =>
      { d with config := d.config.update (cs.flatMap Choice.settings) }.Mirrors m.fragment d' := by
  have hdocument : document src s = headedDocument src s := by
    change (if s.startsHeader then headedDocument else bareDocument) src s = _
    rw [if_pos hstarts]
  rw [hdocument, headedDocument_eq] at hrun
  obtain ⟨p, s₁, hpreamble, hrest⟩ := Run.bind_eq_ok_iff.mp hrun
  have hdisjoint : Preamble.NewTo (.ofChoices cs) p := by
    intro key hkey hseen
    obtain ⟨c, hc, rfl⟩ := List.mem_map.mp hkey
    exact hnew p s₁ hpreamble c hc hseen
  unfold document
  refine from_get ?_
  rw [startsHeader_attribute hcs.ofOptions htoks, hs.startsHeader, hstarts, if_pos rfl, headedDocument_eq]
  refine From.bind (finds_preamble_attribute hs hcs hkeys htoks hpreamble hdisjoint) ?_
  rintro p' s₁' ⟨hp, hs₁⟩
  obtain ⟨d', _, hrest', -, hd, hconfig, hconfig'⟩ :=
    repeats_documentBehind hp.docs hp.attrs _ _ _ _ hs₁ hrest trivial
  refine finds_of_run hrest' ?_
  -- The options of the attribute come first, but none of them is set again.
  have hcomm : ∀ x ∈ cs.flatMap Choice.settings, ∀ y ∈ p.settings, x.key ≠ y.key := by
    intro x hx y hy hsame
    obtain ⟨c, hc, hx⟩ := List.mem_flatMap.mp hx
    refine hnew p s₁ hpreamble c hc ?_
    rw [← Choice.key_of_mem_settings hx, hsame]
    exact ensures_preamble_keyed.of_run hpreamble y hy
  have hsettings : p'.config = p.config.update (cs.flatMap Choice.settings) := by
    rw [Preamble.config, hp.settings]
    exact (Config.update_append ..).trans (Config.update_comm hcomm {})
  refine { hd with config := ?_ }
  rw [hconfig', hconfig, hsettings]

end

end Parser

/-! ## Texts -/

/-- The tokens of a stream are those that it was made of. -/
theorem TokenStream.ahead_concat_last {tokens : List Token} (h : tokens ≠ []) :
    (TokenStream.ofTokens tokens).ahead ++ [(TokenStream.ofTokens tokens).last] = tokens := by
  rw [TokenStream.ofTokens, List.getLast?_eq_some_getLast h]
  exact List.dropLast_append_getLast h

namespace Source

/-- The text starts with the header of a machine, and not with a bare statement. -/
def isHeaded (src : Source) : Bool :=
  match src.tokenize with
  | .ok tokens => (TokenStream.ofTokens tokens).startsHeader
  | .error _ => false

/-- The keys that the generator's attributes in front of a header set. -/
def ownKeys (src : Source) : List String :=
  match src.tokenize with
  | .ok tokens =>
    match Parser.preamble.run src tokens with
    | .ok p => p.seen
    | .error _ => []
  | .error _ => []

/-- **A line of options.** A text with a header can be read with an attribute of options in a line in front of it, if
it does not set these options itself. What is read is the same but for spans and for the options, which are set. -/
theorem parse_optionLine {src src' : Source} {line : String} {cs : List Choice} {ws : List Word} {d : Document}
    (hcs : ChoicesSpelled cs ws) (hkeys : (cs.map Choice.key).Nodup)
    (hline : LaidOut (attributeWords ws) line.toList) (htext : src'.text = line ++ "\n" ++ src.text)
    (hread : src.parse = .ok d) (hheaded : src.isHeaded = true) (hnew : ∀ c ∈ cs, c.key ∉ src.ownKeys) :
    ∃ d', src'.parse = .ok d' ∧
      d'.withoutSpans = { d with config := d.config.update (cs.flatMap Choice.settings) }.withoutSpans := by
  have hbehind : src'.text.toList = (line.toList ++ ['\n']) ++ src.text.toList := by
    rw [htext, String.toList_append, String.toList_append]
    rfl
  let m : Mirror src src' := .behind hbehind
  obtain ⟨tokens, htokens⟩ := exists_tokens_of_parse hread
  simp only [isHeaded, htokens] at hheaded
  simp only [ownKeys, htokens, Parser.run] at hnew
  obtain ⟨s, hrun⟩ := exists_run_of_parse htokens hread
  obtain ⟨ts, hts, htokens'⟩ := hline.tokenize_behind (legible_attributeWords hcs.ofOptions) htokens htext
  have hnew' : ∀ p s₁, Parser.preamble src (TokenStream.ofTokens tokens) = .ok p s₁ →
      ∀ c ∈ cs, c.key ∉ p.seen := by
    intro p s₁ hpreamble
    rwa [hpreamble] at hnew
  have hne : tokens.map (Token.behind (line.toList ++ ['\n'])) ≠ [] :=
    (List.map_eq_nil_iff.not).mpr (ne_nil_of_tokenize htokens)
  have hs : m.Streams (.ofTokens tokens) (.ofTokens (tokens.map (Token.behind (line.toList ++ ['\n'])))) := by
    refine m.streams_ofTokens ?_ (ne_nil_of_tokenize htokens)
    exact List.forall₂_map_right_iff.mpr (List.forall₂_same.mpr fun _ _ => rfl)
  have hfinds := Parser.finds_document_attribute hs hcs hkeys hts.contents hheaded hnew' hrun
  obtain ⟨d', -, hrun', hd⟩ := hfinds.exists_run
  refine ⟨d', ?_, Document.Mirrors.withoutSpans hd⟩
  rw [List.append_assoc, TokenStream.ahead_concat_last hne] at hrun'
  rw [parse_of_tokenize htokens', hrun']

end Source

end Typestate
