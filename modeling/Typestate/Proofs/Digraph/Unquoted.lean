import Typestate.Digraph.Reference
import Typestate.Proofs.Digraph.Listing
import Typestate.Proofs.Digraph.Reading
import Typestate.Proofs.Text.Fields

/-!
Texts without quotes as the reference library reads them. Where no name is in quotes or marked up, every name is a word
(`graphs_named`), and where no brace is opened in front of a comment, there is no graph (`written_opensNothing`).
-/

namespace Typestate

namespace Digraph

theorem Unquoted.of_suffix {cs rest : List Char} (h : Unquoted cs) (hrest : rest <:+ cs) : Unquoted rest :=
  ⟨fun hmem => h.quote (hrest.subset hmem), fun hmem => h.angle (hrest.subset hmem),
    fun hmem => h.colon (hrest.subset hmem), fun hmem => h.slash (hrest.subset hmem)⟩

/-! ## What is left of a text -/

section
variable {cs rest : List Char}

theorem skipFrom_suffix (gap : Gap) (cs : List Char) : skipFrom gap cs <:+ cs := by
  fun_induction skipFrom gap cs with
  | case1 => exact List.suffix_rfl
  | case5 => exact List.suffix_rfl
  | _ => exact List.IsSuffix.trans ‹_› (List.suffix_cons ..)

theorem suffix_of_mark {text : List Char} (h : mark text cs = some rest) : rest <:+ cs := by
  unfold mark at h
  split at h
  · cases h
    exact (List.drop_suffix _ _).trans (skipFrom_suffix _ _)
  · cases h

theorem mark_of_not_mem {c : Char} (h : c ∉ cs) : mark [c] cs = none := by
  unfold mark
  rw [if_neg]
  intro hprefix
  exact h ((skipFrom_suffix .blanks cs).subset ((List.isPrefixOf_iff_prefix.mp hprefix).subset List.mem_cons_self))

theorem suffix_of_dropKeyword {ks : List Char} (h : dropKeyword ks cs = some rest) : rest <:+ cs := by
  fun_induction dropKeyword ks cs with
  | case1 =>
    cases h
    exact List.suffix_rfl
  | case2 => cases h
  | case3 k ks c cs hletter ih => exact (ih h).trans (List.suffix_cons ..)
  | case4 => cases h

theorem suffix_of_keyword {key : String} (h : keyword key cs = some rest) : rest <:+ cs :=
  (suffix_of_dropKeyword h).trans (skipFrom_suffix _ _)

theorem suffix_of_number {digits : List Char} (h : number cs = some (digits, rest)) : rest <:+ cs := by
  unfold number at h
  dsimp only at h
  split at h
  · cases h
  · cases h
    refine (List.drop_suffix _ _).trans (List.IsSuffix.trans ?_ (skipFrom_suffix .blanks cs))
    split
    · exact List.tail_suffix _
    · exact List.suffix_rfl

theorem skipSemicolon_suffix (cs : List Char) : skipSemicolon cs <:+ cs := by
  unfold skipSemicolon
  cases h : mark [';'] cs with
  | none => exact List.suffix_rfl
  | some rest => exact suffix_of_mark h

end

/-! ## Readers -/

/-- What the reader takes from the front of a text without quotes is such, and it leaves a part of the text. -/
def Yields {α : Type} (p : Reader α) (post : α → Prop) : Prop :=
  ∀ ⦃cs a rest⦄, Unquoted cs → p cs = some (a, rest) → post a ∧ rest <:+ cs

/-- Of a text without quotes, the reader leaves a part. -/
def Leaves (p : List Char → Option (List Char)) : Prop :=
  ∀ ⦃cs rest⦄, Unquoted cs → p cs = some rest → rest <:+ cs

/-- The names in the clause are words. -/
def Clause.HasIds : Clause → Prop
  | .node n _ => IsId n
  | .defaults word _ => IsId word
  | .edges ends _ => ∀ e ∈ ends, e.NamedBy IsId
  | _ => True

variable {α : Type} {p : Reader α} {post : α → Prop} {clause : Reader Clause} {cs rest : List Char}

theorem suffix_getD {o : Option (List Char)} (hrest : rest <:+ cs) (ho : ∀ after, o = some after → after <:+ cs) :
    o.getD rest <:+ cs := by
  cases o with
  | none => exact hrest
  | some after => exact ho after rfl

theorem Yields.many (hp : Yields p post) (hcs : Unquoted cs) :
    (∀ a ∈ (many p cs).1, post a) ∧ (many p cs).2 <:+ cs := by
  fun_induction Digraph.many p cs with
  | case1 cs hnone => exact ⟨List.forall_mem_nil _, List.suffix_rfl⟩
  | case2 cs a rest hread hfewer as last hmany ih =>
    obtain ⟨ha, hrest⟩ := hp hcs hread
    obtain ⟨has, hlast⟩ := ih (hcs.of_suffix hrest)
    rw [hmany] at has hlast
    exact ⟨List.forall_mem_cons.mpr ⟨ha, has⟩, hlast.trans hrest⟩
  | case3 cs a rest hread hfewer =>
    obtain ⟨ha, hrest⟩ := hp hcs hread
    exact ⟨List.forall_mem_singleton.mpr ha, hrest⟩

/-! ## Names and attributes -/

/-- All characters are those of words. -/
def AreIdChars (cs : List Char) : Prop := IsId (String.ofList cs)

theorem yields_word : Yields word AreIdChars := by
  intro cs w rest _ h
  unfold word at h
  dsimp only at h
  split at h
  · cases h
  · cases h
    refine ⟨fun c hc => ?_, (List.drop_suffix _ _).trans (skipFrom_suffix _ _)⟩
    rw [String.toList_ofList] at hc
    have hword := List.mem_takeWhile_imp hc
    rw [isWordChar, Bool.and_eq_true] at hword
    exact hword.2

/-- Without quotes and angle brackets, a name is a word. -/
theorem name_eq_word (hcs : Unquoted cs) : name cs = word cs := by
  have hquoted : quotedNames cs = none := by simp [quotedNames, quotedName, mark_of_not_mem hcs.quote]
  have hmarkup : markup cs = none := by simp [markup, mark_of_not_mem hcs.angle]
  rw [name, hquoted, hmarkup, Option.none_or, Option.or_none]

theorem yields_name : Yields name AreIdChars := fun _ _ _ hcs h => yields_word hcs (name_eq_word hcs ▸ h)

theorem yields_value : Yields value fun _ => True := by
  intro cs v rest hcs h
  refine ⟨trivial, ?_⟩
  rcases Option.or_eq_some_iff.mp h with hnumber | ⟨-, hname⟩
  · exact suffix_of_number hnumber
  · exact (yields_name hcs hname).2

theorem leaves_assignment : Leaves assignment := by
  intro cs rest hcs h
  simp only [assignment, Option.bind_eq_bind, Option.bind_eq_some_iff, Option.pure_def, Option.some.injEq,
    Prod.exists] at h
  obtain ⟨n, rest₁, hname, rest₂, hmark, v, rest₃, hvalue, rfl⟩ := h
  have hbehind := (suffix_of_mark hmark).trans (yields_name hcs hname).2
  exact (yields_value (hcs.of_suffix hbehind) hvalue).2.trans hbehind

theorem yields_property : Yields property fun _ => True := by
  intro cs q rest hcs h
  simp only [property, Option.bind_eq_bind, Option.bind_eq_some_iff, Option.pure_def, Option.some.injEq,
    Prod.exists, Prod.mk.injEq] at h
  obtain ⟨n, rest₁, hname, rfl, rfl⟩ := h
  have hbehind := suffix_getD (yields_name hcs hname).2 fun _ => leaves_assignment hcs
  exact ⟨trivial, suffix_getD hbehind fun _ hmark => (suffix_of_mark hmark).trans hbehind⟩

theorem yields_bracketed : Yields bracketed fun _ => True := by
  intro cs qs rest hcs h
  simp only [bracketed, Option.bind_eq_bind, Option.bind_eq_some_iff, Option.pure_def, Option.some.injEq,
    Prod.mk.injEq] at h
  obtain ⟨inner, hopen, after, hclose, rfl, rfl⟩ := h
  have hinner := suffix_of_mark hopen
  refine ⟨trivial, ?_⟩
  exact ((suffix_of_mark hclose).trans (yields_property.many (hcs.of_suffix hinner)).2).trans hinner

theorem yields_attributes : Yields attributes fun _ => True := by
  intro cs b rest hcs h
  simp only [attributes, Option.bind_eq_bind, Option.bind_eq_some_iff, Option.pure_def, Option.some.injEq,
    Prod.exists, Prod.mk.injEq] at h
  obtain ⟨first, rest₁, hfirst, rfl, rfl⟩ := h
  have hbehind := (yields_bracketed hcs hfirst).2
  exact ⟨trivial, (yields_bracketed.many (hcs.of_suffix hbehind)).2.trans hbehind⟩

theorem optionalAttributes_suffix (hcs : Unquoted cs) : (optionalAttributes cs).2 <:+ cs := by
  unfold optionalAttributes
  cases h : attributes cs with
  | none => exact List.suffix_rfl
  | some found => exact (yields_attributes hcs h).2

/-- Without colons there are no ports. -/
theorem yields_nodeName : Yields nodeName IsId := by
  intro cs n rest hcs h
  simp only [nodeName, Option.bind_eq_bind, Option.bind_eq_some_iff, Prod.exists] at h
  obtain ⟨node, rest₁, hnode, h⟩ := h
  obtain ⟨hid, hbehind⟩ := yields_name hcs hnode
  have hport : mark [':'] rest₁ = none := mark_of_not_mem (hcs.of_suffix hbehind).colon
  rw [hport] at h
  cases h
  exact ⟨hid, hbehind⟩

/-! ## Clauses -/

theorem yields_defaults : Yields defaults Clause.HasIds := by
  intro cs c rest hcs h
  simp only [defaults, Option.bind_eq_bind, Option.bind_eq_some_iff, Option.pure_def, Option.some.injEq,
    Prod.exists, Prod.mk.injEq] at h
  obtain ⟨word, after, hword, b, rest', hattributes, rfl, rfl⟩ := h
  obtain ⟨key, hkey, hfound⟩ := List.exists_of_findSome?_eq_some hword
  obtain ⟨after', hkeyword, heq⟩ := Option.map_eq_some_iff.mp hfound
  cases heq
  have hids : ∀ key ∈ ["graph", "node", "edge"], IsId key := by
    simp only [IsId, ← List.forall_iff_forall_mem]
    decide
  have hbehind := suffix_of_keyword hkeyword
  exact ⟨hids _ hkey, (yields_attributes (hcs.of_suffix hbehind) hattributes).2.trans hbehind⟩

theorem yields_terminated (hclause : Yields clause Clause.HasIds) : Yields (fun cs => do
    let (c, rest) ← clause cs
    return (c, skipSemicolon rest)) Clause.HasIds := by
  intro cs c rest hcs h
  simp only [Option.bind_eq_bind, Option.bind_eq_some_iff, Option.pure_def, Option.some.injEq, Prod.exists,
    Prod.mk.injEq] at h
  obtain ⟨c', rest', hread, rfl, rfl⟩ := h
  obtain ⟨hc, hrest⟩ := hclause hcs hread
  exact ⟨hc, (skipSemicolon_suffix _).trans hrest⟩

theorem block_named (hclause : Yields clause Clause.HasIds) {clauses : List Clause} (hcs : Unquoted cs)
    (h : block clause cs = .ok (clauses, rest)) : (∀ c ∈ clauses, c.HasIds) ∧ rest <:+ cs := by
  unfold block at h
  split at h
  · cases h
  · next inner hopen =>
    have hinner := suffix_of_mark hopen
    obtain ⟨hclauses, hlast⟩ := (yields_terminated hclause).many (hcs.of_suffix hinner)
    dsimp only at h
    split at h
    · cases h
    · next after hclose =>
      cases h
      exact ⟨hclauses, (skipSemicolon_suffix _).trans ((suffix_of_mark hclose).trans (hlast.trans hinner))⟩

theorem ok_of_toOption {ε β : Type} {x : Except ε β} {b : β} (h : x.toOption = some b) : x = .ok b := by
  cases x with
  | ok b' =>
    cases h
    rfl
  | error e => cases h

theorem leaves_group (hclause : Yields clause Clause.HasIds) : Leaves (group clause) := by
  intro cs rest hcs h
  rcases Option.or_eq_some_iff.mp h with hnamed | ⟨-, hbare⟩
  · simp only [Option.bind_eq_bind, Option.bind_eq_some_iff, Option.pure_def, Option.some.injEq,
      Prod.exists] at hnamed
    obtain ⟨after, hkeyword, clauses, rest', hblock, rfl⟩ := hnamed
    have hafter := suffix_of_keyword hkeyword
    have hbehind : ((name after).map (·.2)).getD after <:+ cs := by
      refine suffix_getD hafter fun rest hrest => ?_
      obtain ⟨⟨n, rest'⟩, hname, rfl⟩ := Option.map_eq_some_iff.mp hrest
      exact (yields_name (hcs.of_suffix hafter) hname).2.trans hafter
    exact (block_named hclause (hcs.of_suffix hbehind) (ok_of_toOption hblock)).2.trans hbehind
  · obtain ⟨⟨clauses, rest'⟩, hblock, rfl⟩ := Option.map_eq_some_iff.mp hbare
    exact (block_named hclause hcs (ok_of_toOption hblock)).2

theorem yields_endpoint (hclause : Yields clause Clause.HasIds) : Yields (endpoint clause) (Endpoint.NamedBy IsId) := by
  intro cs e rest hcs h
  unfold endpoint at h
  split at h
  · next hgroup =>
    cases h
    exact ⟨trivial, leaves_group hclause hcs hgroup⟩
  · obtain ⟨⟨n, rest'⟩, hname, heq⟩ := Option.map_eq_some_iff.mp h
    cases heq
    exact yields_nodeName hcs hname

theorem yields_furtherEnd (hclause : Yields clause Clause.HasIds) :
    Yields (furtherEnd clause) (Endpoint.NamedBy IsId) := by
  intro cs e rest hcs h
  simp only [furtherEnd, Option.bind_eq_bind, Option.bind_eq_some_iff] at h
  obtain ⟨after, hmark, hend⟩ := h
  have hafter : after <:+ cs := by
    rcases Option.or_eq_some_iff.mp hmark with hmark | ⟨-, hmark⟩
    · exact suffix_of_mark hmark
    · exact suffix_of_mark hmark
  obtain ⟨he, hrest⟩ := yields_endpoint hclause (hcs.of_suffix hafter) hend
  exact ⟨he, hrest.trans hafter⟩

theorem yields_endClause (hclause : Yields clause Clause.HasIds) :
    Yields (endClause clause) Clause.HasIds := by
  intro cs c rest hcs h
  simp only [endClause, Option.bind_eq_bind, Option.bind_eq_some_iff, Prod.exists] at h
  obtain ⟨first, after, hfirst, h⟩ := h
  obtain ⟨hids, hafter⟩ := yields_endpoint hclause hcs hfirst
  obtain ⟨hends, hlast⟩ := (yields_furtherEnd hclause).many (hcs.of_suffix hafter)
  split at h
  · rcases Option.or_eq_some_iff.mp h with hdefaults | ⟨-, hrest⟩
    · exact yields_defaults hcs hdefaults
    · cases first with
      | group =>
        cases hrest
        exact ⟨trivial, hafter⟩
      | node n =>
        cases hrest
        have hattributes := optionalAttributes_suffix (hcs.of_suffix hafter)
        exact ⟨hids, (skipSemicolon_suffix _).trans (hattributes.trans hafter)⟩
  · next more last _ hmany =>
    rw [hmany] at hends hlast
    cases h
    have hattributes := optionalAttributes_suffix (hcs.of_suffix (hlast.trans hafter))
    exact ⟨List.forall_mem_cons.mpr ⟨hids, hends⟩, hattributes.trans (hlast.trans hafter)⟩

/-- However deep blocks are nested, the names in a clause are words. -/
theorem yields_clause (depth : Nat) : Yields (Digraph.clause depth) Clause.HasIds := by
  induction depth with
  | zero =>
    intro cs c rest _ h
    cases h
  | succ depth ih =>
    intro cs c rest hcs h
    unfold Digraph.clause at h
    split at h
    · next hassignment =>
      cases h
      exact ⟨trivial, leaves_assignment hcs hassignment⟩
    · exact yields_endClause ih hcs h

/-! ## Graphs -/

theorem written_named {w : Written} (hcs : Unquoted cs) (h : written cs = .ok (w, rest)) :
    (∀ c ∈ w.clauses, c.HasIds) ∧ rest <:+ cs := by
  unfold written at h
  dsimp only at h
  have hstart : (keyword "strict" cs).getD cs <:+ cs := suffix_getD List.suffix_rfl fun _ => suffix_of_keyword
  split at h
  · cases h
  · next after hkeyword =>
    have hafter : after <:+ cs := by
      rcases Option.or_eq_some_iff.mp hkeyword with hkeyword | ⟨-, hkeyword⟩
      · exact (suffix_of_keyword hkeyword).trans hstart
      · exact (suffix_of_keyword hkeyword).trans hstart
    have hinner : ((name after).getD ([], after)).2 <:+ cs := by
      cases hname : name after with
      | none => exact hafter
      | some found => exact (yields_name (hcs.of_suffix hafter) hname).2.trans hafter
    cases hblock : block (Digraph.clause ((name after).getD ([], after)).2.length)
        ((name after).getD ([], after)).2 with
    | error complaint =>
      rw [hblock] at h
      cases h
    | ok found =>
      rw [hblock] at h
      cases h
      obtain ⟨hclauses, hrest⟩ := block_named (yields_clause _) (hcs.of_suffix hinner) hblock
      exact ⟨hclauses, hrest.trans hinner⟩

theorem graphs_named {text : String} {ws : List Written} (hcs : Unquoted text.toList)
    (h : graphs text = .ok ws) : ∀ w ∈ ws, ∀ c ∈ w.clauses, c.HasIds := by
  unfold graphs at h
  split at h
  · cases h
  · next first after hfirst =>
    cases h
    obtain ⟨hclauses, hafter⟩ := written_named hcs hfirst
    have hmore : Yields (fun cs => (written cs).toOption) fun w => ∀ c ∈ w.clauses, c.HasIds :=
      fun _ _ _ hcs h => written_named hcs (ok_of_toOption h)
    exact List.forall_mem_cons.mpr ⟨hclauses, (hmore.many (hcs.of_suffix hafter)).1⟩

/-! ## Braces -/

section
variable {c : Char} {cs rest : List Char}

/-- No brace is opened in the lines behind this one. -/
def OpensNothingBelow (cs : List Char) : Prop :=
  ∀ line ∈ (Text.fields '\n' cs).tail, '\x7b' ∉ line.takeWhile (· != '#')

theorem OpensNothing.of_cons (h : OpensNothing (c :: cs)) (hc : c ≠ '#') : OpensNothing cs := by
  by_cases hbreak : c = '\n'
  · subst hbreak
    exact fun line hline => h line (List.mem_cons_of_mem _ hline)
  · obtain ⟨line, lines, hfields, hcons⟩ := Text.fields_cons hbreak cs
    unfold OpensNothing at h ⊢
    rw [hcons, List.forall_mem_cons, List.takeWhile_cons, if_pos (by simpa using hc)] at h
    rw [hfields, List.forall_mem_cons]
    exact ⟨fun hmem => h.1 (List.mem_cons_of_mem _ hmem), h.2⟩

/-- A comment goes up to the end of its line. -/
theorem OpensNothing.below (h : OpensNothing ('#' :: cs)) : OpensNothingBelow cs := by
  have hmarker : '#' ≠ '\n' := by decide
  obtain ⟨line, lines, hfields, hcons⟩ := Text.fields_cons hmarker cs
  unfold OpensNothing at h
  unfold OpensNothingBelow
  rw [hcons] at h
  rw [hfields]
  exact fun line hline => h line (List.mem_cons_of_mem _ hline)

theorem OpensNothingBelow.of_cons (h : OpensNothingBelow (c :: cs)) (hc : c ≠ '\n') : OpensNothingBelow cs := by
  obtain ⟨line, lines, hfields, hcons⟩ := Text.fields_cons hc cs
  unfold OpensNothingBelow at h ⊢
  rw [hcons] at h
  rwa [hfields]

theorem ne_brace_of_opensNothing (h : OpensNothing (c :: cs)) : c ≠ '\x7b' := by
  rintro rfl
  have hbrace : '\x7b' ≠ '\n' := by decide
  obtain ⟨line, lines, -, hcons⟩ := Text.fields_cons hbrace cs
  unfold OpensNothing at h
  rw [hcons, List.forall_mem_cons, List.takeWhile_cons] at h
  exact h.1 List.mem_cons_self

/-- Behind a gap without slashes no brace is opened either. -/
theorem OpensNothing.skipGap (h : OpensNothing cs) (hslash : '/' ∉ cs) : OpensNothing (skipGap cs) := by
  suffices hboth : ∀ cs : List Char, '/' ∉ cs → (OpensNothing cs → OpensNothing (skipFrom .blanks cs)) ∧
      (OpensNothingBelow cs → OpensNothing (skipFrom .line cs)) from (hboth cs hslash).1 h
  intro cs
  induction cs with
  | nil => exact fun _ => ⟨id, fun _ => by simp [skipFrom, OpensNothing, Text.fields]⟩
  | cons c cs ih =>
    intro hslash
    rw [List.mem_cons, not_or] at hslash
    obtain ⟨hc, hcs⟩ := hslash
    obtain ⟨hblanks, hline⟩ := ih hcs
    have hnone : (c == '/') = false := by simpa using Ne.symm hc
    constructor
    · intro h
      rw [skipFrom, hnone, Bool.false_and, Bool.false_and, Bool.false_and, Bool.or_false,
        if_neg (c := false = true) Bool.false_ne_true]
      by_cases hspace : Lexeme.isSpace c = true
      · rw [if_pos hspace]
        refine hblanks (h.of_cons ?_)
        rintro rfl
        cases hspace
      · rw [if_neg hspace]
        by_cases hmarker : c = '#'
        · subst hmarker
          exact hline h.below
        · rw [if_neg (by simpa using hmarker)]
          exact h
    · intro h
      rw [skipFrom]
      by_cases hbreak : c = '\n'
      · subst hbreak
        exact hblanks h
      · rw [if_neg (by simpa using hbreak)]
        exact hline (h.of_cons hbreak)

theorem mark_of_opensNothing (h : OpensNothing cs) (hslash : '/' ∉ cs) : mark ['\x7b'] cs = none := by
  have hbehind := h.skipGap hslash
  cases hskip : skipGap cs with
  | nil => simp [mark, hskip]
  | cons c more =>
    rw [hskip] at hbehind
    exact mark_other hskip (ne_brace_of_opensNothing hbehind).symm

theorem OpensNothing.dropKeyword {ks : List Char} (h : OpensNothing cs)
    (hks : ∀ k ∈ ks, Unicode.sameLetter k '#' = false) (hrest : dropKeyword ks cs = some rest) :
    OpensNothing rest := by
  fun_induction Digraph.dropKeyword ks cs with
  | case1 =>
    cases hrest
    exact h
  | case2 => cases hrest
  | case3 k ks c cs hletter ih =>
    obtain ⟨hk, hks⟩ := List.forall_mem_cons.mp hks
    refine ih (h.of_cons ?_) hks hrest
    rintro rfl
    rw [hk] at hletter
    cases hletter
  | case4 => cases hrest

theorem OpensNothing.keyword {key : String} (h : OpensNothing cs) (hcs : Unquoted cs)
    (hkey : key ∈ ["strict", "digraph", "graph"]) (hrest : keyword key cs = some rest) : OpensNothing rest := by
  have hkeys : ∀ key ∈ ["strict", "digraph", "graph"], ∀ k ∈ key.toList, Unicode.sameLetter k '#' = false := by
    simp only [← List.forall_iff_forall_mem]
    decide
  exact (h.skipGap hcs.slash).dropKeyword (hkeys key hkey) hrest

theorem OpensNothing.drop {front : List Char} (h : OpensNothing (front ++ cs)) (hfront : '#' ∉ front) :
    OpensNothing cs := by
  induction front with
  | nil => exact h
  | cons c front ih =>
    rw [List.mem_cons, not_or] at hfront
    exact ih (h.of_cons (Ne.symm hfront.1)) hfront.2

theorem OpensNothing.name {n : List Char} (h : OpensNothing cs) (hcs : Unquoted cs)
    (hname : name cs = some (n, rest)) : OpensNothing rest := by
  rw [name_eq_word hcs] at hname
  unfold Digraph.word at hname
  dsimp only at hname
  split at hname
  · cases hname
  · cases hname
    have hsplit := List.prefix_iff_eq_append.mp (List.takeWhile_prefix isWordChar (l := Digraph.skipGap cs))
    have hbehind := h.skipGap hcs.slash
    rw [← hsplit] at hbehind
    exact hbehind.drop fun hmem => absurd (List.mem_takeWhile_imp hmem) (by decide)

/-- **Braces.** Where no brace is opened in front of a comment, there is no graph. -/
theorem written_opensNothing (h : OpensNothing cs) (hcs : Unquoted cs) : ∃ complaint, written cs = .error complaint := by
  obtain ⟨hstart, hsuffix⟩ : OpensNothing ((keyword "strict" cs).getD cs) ∧ (keyword "strict" cs).getD cs <:+ cs := by
    cases hstrict : keyword "strict" cs with
    | none => exact ⟨h, List.suffix_rfl⟩
    | some rest => exact ⟨h.keyword hcs (by simp) hstrict, suffix_of_keyword hstrict⟩
  have hcs := hcs.of_suffix hsuffix
  unfold written
  dsimp only
  split
  · exact ⟨_, rfl⟩
  · next rest hkeyword =>
    obtain ⟨hrest, hsuffix⟩ : OpensNothing rest ∧ rest <:+ (keyword "strict" cs).getD cs := by
      rcases Option.or_eq_some_iff.mp hkeyword with hkeyword | ⟨-, hkeyword⟩
      · exact ⟨hstart.keyword hcs (by simp) hkeyword, suffix_of_keyword hkeyword⟩
      · exact ⟨hstart.keyword hcs (by simp) hkeyword, suffix_of_keyword hkeyword⟩
    have hcs := hcs.of_suffix hsuffix
    have hblock : ∀ (clause : Reader Clause) (cs : List Char), OpensNothing cs → '/' ∉ cs →
        block clause cs = .error ⟨.openingBrace, skipGap cs, 0⟩ := by
      intro clause cs h hslash
      rw [block, mark_of_opensNothing h hslash]
    cases hname : name rest with
    | none =>
      rw [Option.getD_none, hblock _ _ hrest hcs.slash]
      exact ⟨_, rfl⟩
    | some found =>
      have hbehind := (yields_name hcs hname).2
      rw [Option.getD_some, hblock _ _ (hrest.name hcs hname) (hcs.of_suffix hbehind).slash]
      exact ⟨_, rfl⟩

end

end Digraph

end Typestate
