import Typestate.Proofs.Digraph.Names

/-!
The names that digraphs give to nodes. Behind an identifier the check of a name lets one line feed pass, and
neither the list of keywords nor that of unusable words knows a word with a line feed. So a name that is
accepted can be that of a variant exactly if no line feed ends what was written
(`Digraph.canonicalName_variant_iff`), and `self` with one behind it names a node (`brokenSelf_named`).
-/

namespace Typestate

namespace Identifier

/-- The name can be that of a variant: an ASCII identifier, raw or not, that is no bare keyword, and no word
that cannot be raw in any spelling. -/
structure IsVariantName (name : String) : Prop where
  ascii : IsAsciiName name
  bare : name ∉ keywords
  usable : withoutRaw name ∉ neverRaw

/-- A canonical name that has a line feed behind its marker has no marker. -/
theorem IsCanonical.not_raw {name : String} (h : IsCanonical name) (hmem : '\n' ∈ bareChars name.toList) :
    isRaw name = false := by
  have hkeywords : ∀ word ∈ keywords, '\n' ∉ word.toList := by decide
  rw [← Bool.not_eq_true]
  intro hraw
  rw [← toList_withoutRaw] at hmem
  exact hkeywords _ (h.raw_iff.mp hraw) hmem

end Identifier

namespace Digraph

open Identifier

/-- What is known of a name that is accepted: what was written is well formed, and differs from it in the marker
at most. -/
theorem eq_of_canonicalName {raw name : String} (h : canonicalName raw = .ok name) :
    IsPlainWord (bareChars (dropFinalNewline (unquote raw.toList))) ∧
      bareChars name.toList = bareChars (unquote raw.toList) := by
  have hwell : isWellFormed (String.ofList (unquote raw.toList)) = true ∧
      canonical (String.ofList (unquote raw.toList)) = .ok name := by
    unfold canonicalName at h
    dsimp only at h
    split at h
    · cases h
    · split at h
      · cases h
      · next hwell => exact ⟨by simpa using hwell, Run.eq_ok_of_mapError h⟩
  have hplain := (isWellFormed_iff _).mp hwell.1
  have hbare := bareChars_canonical (isWord_of_isWellFormed hwell.1) hwell.2
  rw [String.toList_ofList] at hplain hbare
  exact ⟨hplain, hbare⟩

/-- **Names of nodes.** Whatever the text, a name that is accepted can be that of a variant if and only if no line
feed ends the text without its quotes. If one does, the name is an ASCII identifier and the line feed. -/
theorem canonicalName_variant_iff {raw name : String} (h : canonicalName raw = .ok name) :
    (IsVariantName name ↔ (unquote raw.toList).getLast? ≠ some '\n') ∧
      ((unquote raw.toList).getLast? = some '\n' →
        ∃ word, IsPlainWord word ∧ name.toList = word ++ ['\n']) := by
  have hcanonical := isCanonical_canonicalName h
  obtain ⟨hplain, hbare⟩ := eq_of_canonicalName h
  by_cases hlast : (unquote raw.toList).getLast? = some '\n'
  · obtain ⟨written, hwritten⟩ := List.getLast?_eq_some_iff.mp hlast
    rw [hwritten, dropFinalNewline_concat] at hplain
    rw [hwritten, bareChars_concat] at hbare
    have hmem : '\n' ∈ bareChars name.toList := by
      rw [hbare]
      exact List.mem_concat_self
    refine ⟨iff_of_false (fun hname => not_mem_of_isPlainWord hname.ascii (by decide) hmem) (not_not.mpr hlast),
      fun _ => ⟨bareChars written, hplain, ?_⟩⟩
    rw [← hbare, bareChars_of_not_raw (hcanonical.not_raw hmem)]
  · rw [dropFinalNewline_of_not_last hlast, ← hbare] at hplain
    obtain ⟨hkeyword, husable, -⟩ := (canonical_eq_self_iff name).mp hcanonical.canonical_eq
    exact ⟨iff_of_true ⟨hplain, hkeyword, husable⟩ hlast, fun hends => absurd hends hlast⟩

theorem quotedType_variant : canonicalName "\"r#type\"" = .ok "r#type" ∧ IsVariantName "r#type" := by
  have h : canonicalName "\"r#type\"" = .ok "r#type" := by decide +kernel
  exact ⟨h, (canonicalName_variant_iff h).1.mpr (by decide +kernel)⟩

/-- A node that is named by `self` and a line feed. -/
def brokenSelf : Source := { text := "digraph M \x7b \"self\n\" -> B; \x7d" }

/-- The name is accepted, and it is that of the node. -/
theorem brokenSelf_named :
    canonicalName "\"self\n\"" = .ok "self\n" ∧ ¬ IsVariantName "self\n" ∧
    reference.read brokenSelf.text =
      .ok [{ name := "M", nodes := [], edges := [((.node "\"self\n\"", .node "B"), false)] }] ∧
    ∀ library, library.read brokenSelf.text = reference.read brokenSelf.text →
      brokenSelf.parseDigraph "State" library = .ok {
        name := "M"
        statements := [.chain { first := [{ name := "self\n" }], rest := [({}, [{ name := "B" }])] }] } := by
  have hreference : reference.read brokenSelf.text =
      .ok [{ name := "M", nodes := [], edges := [((.node "\"self\n\"", .node "B"), false)] }] := by decide +kernel
  refine ⟨by decide +kernel, fun h => not_mem_of_isPlainWord h.ascii (d := '\n') (by decide) (by decide),
    hreference, fun library hlibrary => ?_⟩
  rw [Source.parseDigraph_eq (hlibrary.trans hreference)]
  decide +kernel

end Digraph

end Typestate
