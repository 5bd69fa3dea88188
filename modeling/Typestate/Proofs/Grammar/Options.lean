import Typestate.Proofs.Grammar.Writing

/-!
Options as the attribute of a machine spells them. Every option has a value that can be written behind an
equals sign or in parentheses, and what is written is read as the settings that it stands for
(`Parser.finds_settings`), unless a key is written twice (`Parser.from_settings`).
-/

namespace Typestate

/-! ## Settings -/

/-- The key that the setting is written behind. -/
def Setting.key : Setting → String
  | .renameMethods _ => "rename_methods"
  | .entryVis _ => "entry"
  | .entryName _ => "entry"
  | .trust _ => "unsafe"
  | .pathToCore _ => "path_to_core"
  | .mermaid _ => "mermaid"

namespace Config

/-- Settings of different keys can be made in any order. -/
theorem set_comm {x y : Setting} (h : x.key ≠ y.key) (c : Config) : (c.set x).set y = (c.set y).set x := by
  cases x <;> cases y <;> first | rfl | exact absurd rfl h

theorem set_update {x : Setting} {ys : List Setting} (h : ∀ y ∈ ys, x.key ≠ y.key) (c : Config) :
    (c.set x).update ys = (c.update ys).set x := by
  induction ys generalizing c with
  | nil => rfl
  | cons y ys ih =>
    obtain ⟨hy, hys⟩ := List.forall_mem_cons.mp h
    rw [update, List.foldl_cons, set_comm hy]
    exact ih hys (c.set y)

theorem update_append (c : Config) (xs ys : List Setting) : c.update (xs ++ ys) = (c.update xs).update ys :=
  List.foldl_append

theorem update_comm {xs ys : List Setting} (h : ∀ x ∈ xs, ∀ y ∈ ys, x.key ≠ y.key) (c : Config) :
    (c.update xs).update ys = (c.update ys).update xs := by
  induction xs generalizing c with
  | nil => rfl
  | cons x xs ih =>
    obtain ⟨hx, hxs⟩ := List.forall_mem_cons.mp h
    have hset : (c.update ys).update (x :: xs) = ((c.update ys).set x).update xs := rfl
    rw [hset, ← set_update hx]
    exact ih hxs (c.set x)

end Config

/-! ## Values -/

/-- A name that can be written where an identifier is expected. -/
abbrev WrittenName : Type := { name : String // ReadAs name [(.identifier, name.toList)] }

/-- A path of modules, from the root or not. -/
structure ModulePath where
  isRooted : Bool
  first : WrittenName
  more : List WrittenName

/-- What may be written in front of the name of an entry enum. -/
inductive EntryVisibility
  | inherited
  | everywhere
  | only (scope : String) (hscope : scope ∈ ["crate", "super", "self"])
  | within (path : ModulePath)

/-- An option with a value. -/
inductive Choice
  | entry (vis : EntryVisibility) (name : WrittenName)
  | mermaid (on : Bool)
  | pathToCore (path : ModulePath)
  | renameMethods (on : Bool)
  | trusted (on : Bool)

namespace Word

def keyword (kind : TokenKind) : Word := .lexeme kind.spelling.toList (kind, kind.spelling.toList)

def pathSeparator : Word := .lexeme [':', ':'] (.pathSeparator, [':', ':'])

def equals : Word := mark .equals '='

def comma : Word := mark .comma ','

def pound : Word := mark .pound '#'

def leftParen : Word := mark .leftParen '('

def rightParen : Word := mark .rightParen ')'

def leftBracket : Word := mark .leftBracket '['

def rightBracket : Word := mark .rightBracket ']'

def truth (on : Bool) : Word := keyword (if on then .trueWord else .falseWord)

end Word

open Word

namespace ModulePath

def text (path : ModulePath) : String :=
  path.more.foldl (fun text name => text ++ "::" ++ name.1) ((if path.isRooted then "::" else "") ++ path.first.1)

def words (path : ModulePath) : List Word :=
  (if path.isRooted then [pathSeparator] else []) ++
    identifier path.first.1 :: path.more.flatMap fun name => [pathSeparator, identifier name.1]

end ModulePath

namespace EntryVisibility

def text : EntryVisibility → String
  | inherited => ""
  | everywhere => "pub"
  | only scope _ => "pub(" ++ scope ++ ")"
  | within path => "pub(in " ++ path.text ++ ")"

def words : EntryVisibility → List Word
  | inherited => []
  | everywhere => [keyword .pub]
  | only scope _ => [keyword .pub, leftParen, identifier scope, rightParen]
  | within path => keyword .pub :: leftParen :: identifier "in" :: (path.words ++ [rightParen])

end EntryVisibility

namespace Choice

def key : Choice → String
  | entry _ _ => "entry"
  | mermaid _ => "mermaid"
  | pathToCore _ => "path_to_core"
  | renameMethods _ => "rename_methods"
  | trusted _ => "unsafe"

/-- The settings that the option stands for. -/
def settings : Choice → List Setting
  | entry vis name => [.entryVis (some vis.text), .entryName (some name.1)]
  | mermaid on => [.mermaid on]
  | pathToCore path => [.pathToCore path.text]
  | renameMethods on => [.renameMethods on]
  | trusted on => [.trust (if on then .trusted else .checked)]

/-- The value of the option as it is written. -/
def words : Choice → List Word
  | entry vis name => vis.words ++ [identifier name.1]
  | mermaid on => [truth on]
  | pathToCore path => path.words
  | renameMethods on => [truth on]
  | trusted on => [truth on]

theorem key_of_mem_settings {c : Choice} {x : Setting} (h : x ∈ c.settings) : x.key = c.key := by
  cases c <;> simp only [settings, List.mem_cons, List.not_mem_nil, or_false] at h
  case entry => rcases h with rfl | rfl <;> rfl
  all_goals
    subst h
    rfl

/-- The option can be written as the words. -/
inductive Spelled (c : Choice) : List Word → Prop
  | equals : Spelled c (identifier c.key :: Word.equals :: c.words)
  | inParens : Spelled c (identifier c.key :: leftParen :: (c.words ++ [rightParen]))

end Choice

/-- The options can be written as the words, with commas between and perhaps one more behind the last. -/
inductive ChoicesSpelled : List Choice → List Word → Prop
  | nil : ChoicesSpelled [] []
  | single {c : Choice} {ws : List Word} (h : c.Spelled ws) : ChoicesSpelled [c] ws
  | cons {c : Choice} {cs : List Choice} {ws ws' : List Word} (h : c.Spelled ws)
    (hrest : ChoicesSpelled cs ws') : ChoicesSpelled (c :: cs) (ws ++ comma :: ws')

/-- The attribute of the generator with some words in its parentheses. -/
def attributeWords (ws : List Word) : List Word :=
  pound :: leftBracket :: identifier settingsAttribute :: leftParen :: (ws ++ [rightParen, rightBracket])

/-! ## Reading words -/

namespace Word

/-- The words that options are written with. -/
inductive OfOptions : Word → Prop
  | identifier {name : String} (h : ReadAs name [(.identifier, name.toList)]) : OfOptions (identifier name)
  | keyword {kind : TokenKind} (h : kind ∈ [.pub, .trueWord, .falseWord]) : OfOptions (keyword kind)
  | pathSeparator : OfOptions pathSeparator
  | mark {kind : TokenKind} {c : Char} (h : TokenKind.ofPunctuation c = some kind)
    (hkind : kind ∈ [.equals, .comma, .leftParen, .rightParen]) : OfOptions (mark kind c)

theorem legible_keyword {kind : TokenKind} (h : kind ∈ [.pub, .trueWord, .falseWord]) :
    (keyword kind).Legible := by
  simp only [List.mem_cons, List.not_mem_nil, or_false] at h
  rcases h with rfl | rfl | rfl
  · exact @legible_method "pub" (by decide +kernel)
  · exact @legible_method "true" (by decide +kernel)
  · exact @legible_method "false" (by decide +kernel)

theorem legible_pathSeparator : pathSeparator.Legible := by
  refine ⟨':', [':'], rfl, ?_⟩
  rw [Lexeme.first_other (by decide) (by decide) (by decide), if_neg (by decide), if_neg (by simp),
    if_neg (by decide)]
  rfl

namespace OfOptions

variable {w : Word}

theorem legible (h : w.OfOptions) : w.Legible := by
  cases h with
  | identifier h => exact legible_identifier h
  | keyword h => exact legible_keyword h
  | pathSeparator => exact legible_pathSeparator
  | mark h => exact legible_mark h

/-- None of the words is a square bracket. -/
theorem not_bracket (h : w.OfOptions) : ∀ c ∈ w.contents, c.1 ≠ .leftBracket ∧ c.1 ≠ .rightBracket := by
  cases h with
  | identifier h => exact List.forall_mem_singleton.mpr ⟨nofun, nofun⟩
  | pathSeparator => exact List.forall_mem_singleton.mpr ⟨nofun, nofun⟩
  | keyword h =>
    refine List.forall_mem_singleton.mpr ⟨?_, ?_⟩ <;> rintro rfl <;> exact absurd h (by decide)
  | mark _ hkind =>
    refine List.forall_mem_singleton.mpr ⟨?_, ?_⟩ <;> rintro rfl <;> exact absurd hkind (by decide)

theorem leftParen : leftParen.OfOptions := .mark rfl (by decide)

theorem rightParen : rightParen.OfOptions := .mark rfl (by decide)

theorem truth (on : Bool) : (truth on).OfOptions := by cases on <;> exact .keyword (by decide)

end OfOptions

end Word

open Word (OfOptions)

theorem ModulePath.ofOptions_words (path : ModulePath) : ∀ w ∈ path.words, w.OfOptions := by
  refine List.forall_mem_append.mpr ⟨?_, List.forall_mem_cons.mpr ⟨.identifier path.first.2, ?_⟩⟩
  · split
    · exact List.forall_mem_singleton.mpr .pathSeparator
    · nofun
  · intro w hw
    obtain ⟨name, -, hw⟩ := List.mem_flatMap.mp hw
    rcases List.mem_pair.mp hw with rfl | rfl
    · exact .pathSeparator
    · exact .identifier name.2

theorem EntryVisibility.ofOptions_words (vis : EntryVisibility) : ∀ w ∈ vis.words, w.OfOptions := by
  have hpub : (Word.keyword .pub).OfOptions := .keyword (by decide)
  cases vis with
  | inherited => nofun
  | everywhere => exact List.forall_mem_singleton.mpr hpub
  | only scope hscope =>
    have hread : ∀ scope ∈ ["crate", "super", "self"], ReadAs scope [(.identifier, scope.toList)] := by
      decide +kernel
    simp only [words, List.forall_mem_cons]
    exact ⟨hpub, .leftParen, .identifier (hread scope hscope), .rightParen, nofun⟩
  | within path =>
    have hin : ReadAs "in" [(.identifier, "in".toList)] := by decide +kernel
    simp only [words, List.forall_mem_cons, List.forall_mem_append]
    exact ⟨hpub, .leftParen, .identifier hin, path.ofOptions_words, .rightParen, nofun⟩

namespace Choice

theorem ofOptions_words (c : Choice) : ∀ w ∈ c.words, w.OfOptions := by
  cases c with
  | entry vis name =>
    exact List.forall_mem_append.mpr ⟨vis.ofOptions_words, List.forall_mem_singleton.mpr (.identifier name.2)⟩
  | pathToCore path => exact path.ofOptions_words
  | mermaid on => exact List.forall_mem_singleton.mpr (.truth on)
  | renameMethods on => exact List.forall_mem_singleton.mpr (.truth on)
  | trusted on => exact List.forall_mem_singleton.mpr (.truth on)

theorem ofOptions_key (c : Choice) : (identifier c.key).OfOptions := by
  have hread : ∀ key ∈ settingKeys, ReadAs key [(.identifier, key.toList)] := by decide +kernel
  cases c <;> exact .identifier (hread _ (by simp [key, settingKeys]))

theorem Spelled.ofOptions {c : Choice} {ws : List Word} (h : c.Spelled ws) : ∀ w ∈ ws, w.OfOptions := by
  cases h with
  | equals =>
    simp only [List.forall_mem_cons]
    exact ⟨c.ofOptions_key, .mark rfl (by decide), c.ofOptions_words⟩
  | inParens =>
    simp only [List.forall_mem_cons, List.forall_mem_append]
    exact ⟨c.ofOptions_key, .leftParen, c.ofOptions_words, .rightParen, nofun⟩

end Choice

theorem ChoicesSpelled.ofOptions {cs : List Choice} {ws : List Word} (h : ChoicesSpelled cs ws) :
    ∀ w ∈ ws, w.OfOptions := by
  induction h with
  | nil => nofun
  | single h => exact h.ofOptions
  | cons h hrest ih =>
    simp only [List.forall_mem_append, List.forall_mem_cons]
    exact ⟨h.ofOptions, .mark rfl (by decide), ih⟩

theorem legible_attributeWords {ws : List Word} (h : ∀ w ∈ ws, w.OfOptions) :
    ∀ w ∈ attributeWords ws, w.Legible := by
  have hname : ReadAs settingsAttribute [(.identifier, settingsAttribute.toList)] := by decide +kernel
  simp only [attributeWords, List.forall_mem_cons, List.forall_mem_append]
  exact ⟨legible_mark rfl, legible_mark rfl, legible_identifier hname, legible_mark rfl,
    fun w hw => (h w hw).legible, legible_mark rfl, legible_mark rfl, nofun⟩

/-! ## Reading options -/

namespace Parser

variable {src : Source} {rest toks : List Token} {last : Token}

theorem finds_modulePath {path : ModulePath} (htoks : toks.map Token.content = path.words.flatMap Word.contents)
    (hrest : (⟨rest, last⟩ : TokenStream).current.kind ≠ .pathSeparator) :
    Finds src ⟨toks ++ rest, last⟩ modulePath fun text s' => text = path.text ∧ s' = ⟨rest, last⟩ := by
  -- The names behind the first one.
  have hmore : ∀ (more : List WrittenName) (text : String) (toks : List Token),
      toks.map Token.content = (more.flatMap fun name =>
        [Word.pathSeparator, identifier name.1]).flatMap Word.contents →
      Finds src ⟨toks ++ rest, last⟩ (rounds (fun path => do
        if ← isAt .pathSeparator then
          let _ ← advance
          let next ← expect .identifier
          return .again (path ++ "::" ++ next.value)
        else return .done path) text) fun found s' =>
          found = more.foldl (fun text name => text ++ "::" ++ name.1) text ∧ s' = ⟨rest, last⟩ := by
    intro more
    induction more with
    | nil =>
      intro text toks htoks
      rw [List.map_eq_nil_iff.mp htoks]
      exact from_rounds_step (finds_isNotAt hrest (from_pure ⟨rfl, rfl⟩))
    | cons name more ih =>
      intro text toks htoks
      obtain ⟨sep, toks, rfl, hsep, htoks⟩ := List.map_eq_cons_iff.mp htoks
      obtain ⟨next, toks, rfl, hnext, htoks⟩ := List.map_eq_cons_iff.mp htoks
      refine from_rounds_step (finds_isAt (kind_of_content hsep) (finds_advance
        (finds_expect (kind_of_content hnext) (from_pure ⟨?_, ?_⟩))))
      · exact Nat.lt_succ_of_lt (Nat.lt_succ_self _)
      · rw [value_of_content hnext]
        exact ih _ toks htoks
  have hname : ∀ (root : String) (toks : List Token), toks.map Token.content =
      (identifier path.first.1 :: path.more.flatMap fun name =>
        [Word.pathSeparator, identifier name.1]).flatMap Word.contents →
      Finds src ⟨toks ++ rest, last⟩ (do
        let first ← expect .identifier
        rounds (fun path => do
          if ← isAt .pathSeparator then
            let _ ← advance
            let next ← expect .identifier
            return .again (path ++ "::" ++ next.value)
          else return .done path) (root ++ first.value)) fun found s' =>
            found = path.more.foldl (fun text name => text ++ "::" ++ name.1) (root ++ path.first.1) ∧
              s' = ⟨rest, last⟩ := by
    intro root toks htoks
    obtain ⟨first, toks, rfl, hfirst, htoks⟩ := List.map_eq_cons_iff.mp htoks
    refine finds_expect (kind_of_content hfirst) ?_
    rw [value_of_content hfirst]
    exact hmore path.more _ toks htoks
  unfold modulePath ModulePath.text
  unfold ModulePath.words at htoks
  split at htoks
  · next hroot =>
    obtain ⟨sep, toks, rfl, hsep, htoks⟩ := List.map_eq_cons_iff.mp htoks
    rw [if_pos hroot]
    exact finds_isAt (kind_of_content hsep) (finds_advance (hname "::" toks htoks))
  · next hroot =>
    have hsep : (⟨toks ++ rest, last⟩ : TokenStream).current.kind ≠ .pathSeparator := by
      obtain ⟨first, toks, rfl, hfirst, -⟩ := List.map_eq_cons_iff.mp htoks
      exact current_ne (kind_of_content hfirst) nofun
    rw [if_neg hroot]
    exact finds_isNotAt hsep (hname "" toks htoks)

theorem finds_truthValue {on : Bool} {t : Token} (ht : [t].map Token.content = (truth on).contents) :
    Finds src ⟨t :: rest, last⟩ truthValue fun b s' => b = on ∧ s' = ⟨rest, last⟩ := by
  have hkind : (⟨t :: rest, last⟩ : TokenStream).current.kind = if on then .trueWord else .falseWord :=
    kind_of_content (List.cons.inj ht).1
  unfold truthValue
  refine from_current ?_
  rw [hkind]
  cases on with
  | true => exact finds_advance (from_pure ⟨rfl, rfl⟩)
  | false => exact finds_advance (from_pure ⟨rfl, rfl⟩)

/-- Behind a visibility stands a name. -/
theorem finds_visibility {vis : EntryVisibility} {name : Token}
    (htoks : toks.map Token.content = vis.words.flatMap Word.contents) (hname : name.kind = .identifier) :
    Finds src ⟨toks ++ name :: rest, last⟩ visibility fun text s' =>
      text = vis.text ∧ s' = ⟨name :: rest, last⟩ := by
  unfold visibility
  cases vis with
  | inherited =>
    rw [List.map_eq_nil_iff.mp htoks]
    exact finds_isNotAt (current_ne hname nofun) (from_pure ⟨rfl, rfl⟩)
  | everywhere =>
    obtain ⟨word, rfl, hword⟩ := List.map_eq_singleton_iff.mp htoks
    refine finds_isAt (kind_of_content hword) (finds_advance ?_)
    exact finds_isNotAt (current_ne hname nofun) (from_pure ⟨rfl, rfl⟩)
  | only scope hscope =>
    obtain ⟨word, toks, rfl, hword, htoks⟩ := List.map_eq_cons_iff.mp htoks
    obtain ⟨opening, toks, rfl, hopening, htoks⟩ := List.map_eq_cons_iff.mp htoks
    obtain ⟨restriction, closing, rfl, hrestriction, hclosing⟩ := exists_pair htoks
    have hvalue : restriction.value = scope := value_of_content hrestriction
    refine finds_isAt (kind_of_content hword) (finds_advance (finds_isAt (kind_of_content hopening) ?_))
    have hwords : scope ∈ restrictionWords ∧ scope ≠ "in" := by
      simp only [List.mem_cons, List.not_mem_nil, or_false] at hscope
      rcases hscope with rfl | rfl | rfl <;> decide
    refine from_peek (from_ite (fun hother => ?_) fun _ => finds_advance (finds_advance ?_))
    · simp [TokenStream.peek, kind_of_content hrestriction, hvalue, hwords.1] at hother
    · rw [hvalue]
      refine from_ite (fun hin => absurd (beq_iff_eq.mp hin) hwords.2) fun _ => ?_
      exact finds_expect (kind_of_content hclosing) (from_pure ⟨rfl, rfl⟩)
  | within path =>
    have hcontents : (EntryVisibility.within path).words.flatMap Word.contents =
        (.pub, ['p', 'u', 'b']) :: (.leftParen, ['(']) :: (.identifier, "in".toList) ::
          (path.words.flatMap Word.contents ++ [(.rightParen, [')'])]) := by
      rw [EntryVisibility.words, List.flatMap_cons, List.flatMap_cons, List.flatMap_cons, List.flatMap_append]
      rfl
    rw [hcontents] at htoks
    obtain ⟨word, toks, rfl, hword, htoks⟩ := List.map_eq_cons_iff.mp htoks
    obtain ⟨opening, toks, rfl, hopening, htoks⟩ := List.map_eq_cons_iff.mp htoks
    obtain ⟨restriction, toks, rfl, hrestriction, htoks⟩ := List.map_eq_cons_iff.mp htoks
    obtain ⟨front, toks, rfl, hfront, htoks⟩ := List.map_eq_append_iff.mp htoks
    obtain ⟨closing, rfl, hclosing⟩ := List.map_eq_singleton_iff.mp htoks
    have hvalue : restriction.value = "in" := value_of_content hrestriction
    refine finds_isAt (kind_of_content hword) (finds_advance (finds_isAt (kind_of_content hopening) ?_))
    refine from_peek (from_ite (fun hother => ?_) fun _ => finds_advance (finds_advance ?_))
    · simp [TokenStream.peek, kind_of_content hrestriction, hvalue, restrictionWords] at hother
    · rw [hvalue]
      refine from_ite (fun _ => ?_) fun hin => absurd rfl hin
      change Finds src ⟨front ++ [closing] ++ name :: rest, last⟩ _ _
      rw [List.append_assoc]
      refine (finds_modulePath hfront (current_ne (kind_of_content hclosing) nofun)).bind ?_
      rintro _ _ ⟨rfl, rfl⟩
      refine finds_expect (kind_of_content hclosing) (from_pure ⟨?_, rfl⟩)
      rw [EntryVisibility.text, ← String.append_assoc]
      rfl

/-- The value of an option is read as its settings. -/
theorem finds_value (c : Choice) (htoks : toks.map Token.content = c.words.flatMap Word.contents)
    (hrest : (⟨rest, last⟩ : TokenStream).current.kind ≠ .pathSeparator) :
    ∃ value, settingValue c.key = some value ∧
      Finds src ⟨toks ++ rest, last⟩ value fun set s' => set = c.settings ∧ s' = ⟨rest, last⟩ := by
  have htruth : ∀ {on : Bool} {f : Bool → List Setting},
      toks.map Token.content = [truth on].flatMap Word.contents →
      Finds src ⟨toks ++ rest, last⟩ (do return f (← truthValue)) fun set s' => set = f on ∧ s' = ⟨rest, last⟩ := by
    intro on f htoks
    obtain ⟨t, rfl, ht⟩ := List.map_eq_singleton_iff.mp htoks
    refine (finds_truthValue (congrArg (fun c => [c]) ht)).bind ?_
    rintro _ _ ⟨rfl, rfl⟩
    exact from_pure ⟨rfl, rfl⟩
  cases c with
  | mermaid on => exact ⟨_, rfl, htruth htoks⟩
  | renameMethods on => exact ⟨_, rfl, htruth htoks⟩
  | trusted on => exact ⟨_, rfl, htruth htoks⟩
  | pathToCore path =>
    refine ⟨_, rfl, (finds_modulePath htoks hrest).bind ?_⟩
    rintro _ _ ⟨rfl, rfl⟩
    exact from_pure ⟨rfl, rfl⟩
  | entry vis name =>
    rw [Choice.words, List.flatMap_append] at htoks
    obtain ⟨front, toks, rfl, hfront, htoks⟩ := List.map_eq_append_iff.mp htoks
    obtain ⟨t, rfl, ht⟩ := List.map_eq_singleton_iff.mp htoks
    have hkind : t.kind = .identifier := kind_of_content ht
    have hvalue : t.value = name.1 := value_of_content ht
    rw [List.append_assoc]
    refine ⟨_, rfl, (finds_visibility hfront hkind).bind ?_⟩
    rintro _ _ ⟨rfl, rfl⟩
    refine finds_expect hkind (from_pure ⟨?_, rfl⟩)
    rw [hvalue]
    rfl

/-- Two preambles, one behind the other. -/
def Preamble.append (first p : Preamble) : Preamble :=
  { docs := first.docs ++ p.docs, attrs := first.attrs ++ p.attrs, settings := first.settings ++ p.settings,
    seen := first.seen ++ p.seen }

/-- The preamble that consists of some options. -/
def Preamble.ofChoices (cs : List Choice) : Preamble :=
  { settings := cs.flatMap Choice.settings, seen := cs.map Choice.key }

theorem finds_setting {p : Preamble} {c : Choice} {ws : List Word} (h : c.Spelled ws)
    (htoks : toks.map Token.content = ws.flatMap Word.contents) (hnew : c.key ∉ p.seen)
    (hrest : (⟨rest, last⟩ : TokenStream).current.kind ≠ .pathSeparator) :
    Finds src ⟨toks ++ rest, last⟩ (setting p) fun p' s' =>
      p' = p.append (.ofChoices [c]) ∧ s' = ⟨rest, last⟩ := by
  have hresult : ({ p with settings := p.settings ++ c.settings, seen := p.seen ++ [c.key] } : Preamble) =
      p.append (.ofChoices [c]) := by simp [Preamble.append, Preamble.ofChoices]
  have hunseen : ¬ p.seen.contains c.key = true := by simpa using hnew
  cases h with
  | equals =>
    obtain ⟨key, toks, rfl, hkey, htoks⟩ := List.map_eq_cons_iff.mp htoks
    obtain ⟨sign, toks, rfl, hsign, htoks⟩ := List.map_eq_cons_iff.mp htoks
    obtain ⟨value, hvalue, hfinds⟩ := finds_value c htoks hrest
    unfold setting
    refine finds_expect (kind_of_content hkey) ?_
    rw [value_of_content hkey, hvalue]
    refine from_ite (fun hseen => absurd hseen hunseen) fun _ => finds_isAt (kind_of_content hsign) ?_
    refine finds_advance (hfinds.bind ?_)
    rintro _ _ ⟨rfl, rfl⟩
    exact from_pure ⟨hresult, rfl⟩
  | inParens =>
    have hcontents : (identifier c.key :: leftParen :: (c.words ++ [rightParen])).flatMap Word.contents =
        (.identifier, c.key.toList) :: (.leftParen, ['(']) ::
          (c.words.flatMap Word.contents ++ [(.rightParen, [')'])]) := by
      rw [List.flatMap_cons, List.flatMap_cons, List.flatMap_append]
      rfl
    rw [hcontents] at htoks
    obtain ⟨key, toks, rfl, hkey, htoks⟩ := List.map_eq_cons_iff.mp htoks
    obtain ⟨opening, toks, rfl, hopening, htoks⟩ := List.map_eq_cons_iff.mp htoks
    obtain ⟨front, toks, rfl, hfront, htoks⟩ := List.map_eq_append_iff.mp htoks
    obtain ⟨closing, rfl, hclosing⟩ := List.map_eq_singleton_iff.mp htoks
    have hstop : (⟨closing :: rest, last⟩ : TokenStream).current.kind ≠ .pathSeparator :=
      current_ne (kind_of_content hclosing) nofun
    obtain ⟨value, hvalue, hfinds⟩ := finds_value c hfront hstop
    unfold setting
    refine finds_expect (kind_of_content hkey) ?_
    rw [value_of_content hkey, hvalue]
    refine from_ite (fun hseen => absurd hseen hunseen) fun _ => ?_
    refine finds_isNotAt (current_ne (kind_of_content hopening) nofun) ?_
    refine finds_expect (kind_of_content hopening) ?_
    change Finds src ⟨front ++ [closing] ++ rest, last⟩ _ _
    rw [List.append_assoc]
    refine hfinds.bind ?_
    rintro _ _ ⟨rfl, rfl⟩
    exact finds_expect (kind_of_content hclosing) (from_pure ⟨hresult, rfl⟩)

/-- A key that is written stands in front of its value. -/
theorem exists_key {c : Choice} {ws : List Word} (h : c.Spelled ws)
    (htoks : toks.map Token.content = ws.flatMap Word.contents) :
    ∃ key more, toks = key :: more ∧ key.content = (.identifier, c.key.toList) := by
  cases h <;>
  · obtain ⟨key, more, rfl, hkey, -⟩ := List.map_eq_cons_iff.mp htoks
    exact ⟨key, more, rfl, hkey⟩

theorem exists_settingValue (c : Choice) : ∃ value, settingValue c.key = some value := by
  cases c <;> exact ⟨_, rfl⟩

/-- An option is read, unless its key has been seen. -/
theorem from_setting {p : Preamble} {c : Choice} {ws : List Word} (h : c.Spelled ws)
    (htoks : toks.map Token.content = ws.flatMap Word.contents)
    (hrest : (⟨rest, last⟩ : TokenStream).current.kind ≠ .pathSeparator) :
    From (fun cause => c.key ∈ p.seen ∧ cause = .repeatedSetting c.key) src ⟨toks ++ rest, last⟩ (setting p)
      fun p' s' => c.key ∉ p.seen ∧ p' = p.append (.ofChoices [c]) ∧ s' = ⟨rest, last⟩ := by
  by_cases hseen : c.key ∈ p.seen
  · obtain ⟨key, more, rfl, hkey⟩ := exists_key h htoks
    obtain ⟨value, hvalue⟩ := exists_settingValue c
    unfold setting
    refine finds_expect (kind_of_content hkey) ?_
    rw [value_of_content hkey, hvalue]
    refine from_ite (fun _ => from_fail_bind ⟨hseen, rfl⟩) fun hnew => absurd ?_ hnew
    simpa using hseen
  · refine (finds_setting h htoks hseen hrest).allowing.weaken ?_
    rintro _ _ ⟨rfl, rfl⟩
    exact ⟨hseen, rfl, rfl⟩

/-- One round of reading the options in the parentheses of the attribute. -/
def settingsRound (p : Preamble) : Parser (Round Preamble) := do
  if ← isAt .rightParen then return .done p
  let p ← setting p
  if ← isAt .comma then
    let _ ← advance
    return .again p
  else return .done p

theorem settings_eq (p : Preamble) : settings p = do
    let _ ← expect .pound
    let _ ← expect .leftBracket
    let _ ← expect .identifier
    let _ ← expect .leftParen
    let p ← rounds settingsRound p
    let _ ← expect .rightParen
    let _ ← expect .rightBracket
    return p := rfl

/-- A key is written twice, and that is the complaint. -/
def IsRepeated (keys : List String) (cause : ParseCause) : Prop :=
  ∃ key, 2 ≤ keys.count key ∧ cause = .repeatedSetting key

theorem isRepeated_of_mem {seen keys : List String} {key : String} (hseen : key ∈ seen) (hkey : key ∈ keys) :
    IsRepeated (seen ++ keys) (.repeatedSetting key) := by
  refine ⟨key, ?_, rfl⟩
  have hfront := List.count_pos_iff.mpr hseen
  have hback := List.count_pos_iff.mpr hkey
  rw [List.count_append]
  omega

theorem not_isRepeated {keys : List String} (h : keys.Nodup) (cause : ParseCause) :
    ¬ IsRepeated keys cause := by
  rintro ⟨key, htwice, -⟩
  have honce := List.nodup_iff_count_le_one.mp h key
  omega

/-- More complaints may be allowed. -/
theorem From.allow {may' : ParseCause → Prop} {s : TokenStream} {p : Parser α}
    {post : α → TokenStream → Prop} (h : From may src s p post)
    (hmay : ∀ cause, may cause → may' cause) : From may' src s p post := by
  unfold From at h ⊢
  split at h
  · exact h
  · exact hmay _ h

/-- Options are read up to the parenthesis behind them, unless a key is written twice. -/
theorem from_choices {cs : List Choice} {ws : List Word} {closing : Token} (h : ChoicesSpelled cs ws)
    (p : Preamble) (hseen : p.seen.Nodup) (htoks : toks.map Token.content = ws.flatMap Word.contents)
    (hclosing : closing.kind = .rightParen) :
    From (IsRepeated (p.seen ++ cs.map Choice.key)) src ⟨toks ++ closing :: rest, last⟩
      (rounds settingsRound p) fun p' s' => (p.seen ++ cs.map Choice.key).Nodup ∧
        p' = p.append (.ofChoices cs) ∧ s' = ⟨closing :: rest, last⟩ := by
  have hstart : ∀ {key : Token} {name : String} {more : List Token},
      key.content = (.identifier, name.toList) →
      (⟨key :: more, last⟩ : TokenStream).current.kind ≠ .rightParen := fun hkey =>
    current_ne (kind_of_content hkey) nofun
  have hsnoc : ∀ {seen : List String} {key : String}, seen.Nodup → key ∉ seen → (seen ++ [key]).Nodup :=
    fun hseen hnew => List.nodup_append_comm.mp (List.nodup_cons.mpr ⟨hnew, hseen⟩)
  induction h generalizing p toks with
  | nil =>
    rw [List.map_eq_nil_iff.mp htoks]
    refine from_rounds_step (finds_isAt hclosing (from_pure ⟨by simpa using hseen, ?_, rfl⟩))
    simp [Preamble.append, Preamble.ofChoices]
  | @single c ws h =>
    obtain ⟨key, more, rfl, hkey⟩ := exists_key h htoks
    refine from_rounds_step (finds_isNotAt (hstart hkey) ?_)
    refine ((from_setting h htoks (current_ne hclosing nofun)).allow ?_).bind ?_
    · rintro _ ⟨hmem, rfl⟩
      exact isRepeated_of_mem hmem (List.mem_singleton_self _)
    · rintro _ _ ⟨hnew, rfl, rfl⟩
      exact finds_isNotAt (current_ne hclosing nofun) (from_pure ⟨hsnoc hseen hnew, rfl, rfl⟩)
  | @cons c cs ws ws' h hrest ih =>
    rw [List.flatMap_append, List.flatMap_cons] at htoks
    obtain ⟨front, toks, rfl, hfront, htoks⟩ := List.map_eq_append_iff.mp htoks
    obtain ⟨comma, toks, rfl, hcomma, hback⟩ := List.map_eq_cons_iff.mp htoks
    rw [List.append_assoc, List.cons_append]
    obtain ⟨key, more, rfl, hkey⟩ := exists_key h hfront
    have hkeys : (p.append (.ofChoices [c])).seen ++ cs.map Choice.key =
        p.seen ++ (c :: cs).map Choice.key := by simp [Preamble.append, Preamble.ofChoices]
    have hresult : (p.append (.ofChoices [c])).append (.ofChoices cs) = p.append (.ofChoices (c :: cs)) := by
      simp [Preamble.append, Preamble.ofChoices]
    refine from_rounds_step (finds_isNotAt (hstart hkey) ?_)
    refine ((from_setting h hfront (current_ne (kind_of_content hcomma) nofun)).allow ?_).bind ?_
    · rintro _ ⟨hmem, rfl⟩
      exact isRepeated_of_mem hmem (List.mem_cons_self ..)
    · rintro _ _ ⟨hnew, rfl, rfl⟩
      refine finds_isAt (kind_of_content hcomma) (finds_advance (from_pure ⟨?_, ?_⟩))
      · simp only [List.length_append, List.length_cons]
        omega
      · rw [← hkeys, ← hresult]
        exact ih (p.append (.ofChoices [c])) (hsnoc hseen hnew) hback

/-- The tokens of the attribute. -/
theorem exists_attributeTokens {ws : List Word}
    (htoks : toks.map Token.content = (attributeWords ws).flatMap Word.contents) :
    ∃ pound bracket name opening inner closing close,
      toks = pound :: bracket :: name :: opening :: (inner ++ [closing, close]) ∧
        pound.kind = .pound ∧ bracket.kind = .leftBracket ∧
        name.content = (.identifier, settingsAttribute.toList) ∧ opening.kind = .leftParen ∧
        inner.map Token.content = ws.flatMap Word.contents ∧ closing.kind = .rightParen ∧
        close.kind = .rightBracket := by
  have hcontents : (attributeWords ws).flatMap Word.contents = (.pound, ['#']) :: (.leftBracket, ['[']) ::
      (.identifier, settingsAttribute.toList) :: (.leftParen, ['(']) ::
        (ws.flatMap Word.contents ++ [(.rightParen, [')']), (.rightBracket, [']'])]) := by
    rw [attributeWords, List.flatMap_cons, List.flatMap_cons, List.flatMap_cons, List.flatMap_cons,
      List.flatMap_append]
    rfl
  rw [hcontents] at htoks
  obtain ⟨pound, toks, rfl, hpound, htoks⟩ := List.map_eq_cons_iff.mp htoks
  obtain ⟨bracket, toks, rfl, hbracket, htoks⟩ := List.map_eq_cons_iff.mp htoks
  obtain ⟨name, toks, rfl, hname, htoks⟩ := List.map_eq_cons_iff.mp htoks
  obtain ⟨opening, toks, rfl, hopening, htoks⟩ := List.map_eq_cons_iff.mp htoks
  obtain ⟨inner, toks, rfl, hinner, htoks⟩ := List.map_eq_append_iff.mp htoks
  obtain ⟨closing, close, rfl, hclosing, hclose⟩ := exists_pair htoks
  exact ⟨pound, bracket, name, opening, inner, closing, close, rfl, kind_of_content hpound,
    kind_of_content hbracket, hname, kind_of_content hopening, hinner, kind_of_content hclosing,
    kind_of_content hclose⟩

/-- The attribute is read as its options, unless a key is written twice. -/
theorem from_settings {cs : List Choice} {ws : List Word} (h : ChoicesSpelled cs ws) (p : Preamble)
    (hseen : p.seen.Nodup) (htoks : toks.map Token.content = (attributeWords ws).flatMap Word.contents) :
    From (IsRepeated (p.seen ++ cs.map Choice.key)) src ⟨toks ++ rest, last⟩ (settings p) fun p' s' =>
      (p.seen ++ cs.map Choice.key).Nodup ∧ p' = p.append (.ofChoices cs) ∧ s' = ⟨rest, last⟩ := by
  obtain ⟨pound, bracket, name, opening, inner, closing, close, rfl, hpound, hbracket, hname, hopening, hinner,
    hclosing, hclose⟩ := exists_attributeTokens htoks
  rw [settings_eq]
  refine finds_expect hpound (finds_expect hbracket (finds_expect (kind_of_content hname)
    (finds_expect hopening ?_)))
  change From _ src ⟨inner ++ [closing, close] ++ rest, last⟩ _ _
  rw [List.append_assoc]
  refine (from_choices h p hseen hinner hclosing).bind ?_
  rintro _ _ ⟨hkeys, rfl, rfl⟩
  exact finds_expect hclosing (finds_expect hclose (from_pure ⟨hkeys, rfl, rfl⟩))

/-- **Options.** The attribute is read as its options, if no key is written twice. -/
theorem finds_settings {cs : List Choice} {ws : List Word} (h : ChoicesSpelled cs ws)
    (hkeys : (cs.map Choice.key).Nodup)
    (htoks : toks.map Token.content = (attributeWords ws).flatMap Word.contents) :
    Finds src ⟨toks ++ rest, last⟩ (settings {}) fun p s' => p = .ofChoices cs ∧ s' = ⟨rest, last⟩ := by
  refine ((from_settings h {} List.nodup_nil htoks).allow (not_isRepeated hkeys)).weaken ?_
  rintro _ _ ⟨-, rfl, rfl⟩
  exact ⟨by simp [Preamble.append, Preamble.ofChoices], rfl⟩

end Parser

end Typestate
