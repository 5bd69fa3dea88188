import Typestate.Proofs.Text.Fields
import Typestate.Proofs.Token.Place
import Typestate.Source.Context

/-!
What a message shows of a source text. The line and the column of every offset are in the text
(`Source.contains_offset`), and the context of a place in a text shows the lines around it, each behind its
number, with the carets under the place (`Source.exists_shows`).
-/

namespace Typestate

namespace Source

variable (src : Source)

/-- The number of lines of a text. -/
def lineCount : Nat := (Text.lines src.text).length

/-- The line of a text with a given number. -/
def line (n : Nat) : String := (Text.lines src.text).getD (n - 1) ""

/-- The line is one of the text, and the column is one of that line or the one behind its end. -/
structure Contains (line column : Nat) : Prop where
  line_pos : 1 ≤ line
  line_le : line ≤ src.lineCount
  column_pos : 1 ≤ column
  column_le : column ≤ (src.line line).length + 1

/-- **Places.** The line and the column of an offset are in the text. -/
theorem contains_offset (offset : Nat) : src.Contains (src.lineAt offset) (src.columnAt offset) := by
  have htext := List.take_append_drop offset src.text.toList
  obtain ⟨field, hfield⟩ := Text.getElem?_fields_count '\n' (src.text.toList.take offset)
    (src.text.toList.drop offset)
  rw [htext] at hfield
  have hline : src.line (src.lineAt offset) =
      String.ofList (((src.text.toList.take offset).reverse.takeWhile (· != '\n')).reverse ++ field) := by
    rw [line, lineAt, Nat.add_sub_cancel_left, Text.lines, List.getD_eq_getElem?_getD, List.getElem?_map,
      hfield]
    rfl
  refine ⟨Nat.le_add_right .., ?_, Nat.le_add_right .., ?_⟩
  · have hcount := (List.take_sublist offset src.text.toList).count_le '\n'
    rw [lineAt, lineCount, Text.lines, List.length_map, Text.length_fields, Nat.add_comm]
    exact Nat.add_le_add_right hcount 1
  · rw [hline, columnAt, String.length_ofList, List.length_append, List.length_reverse]
    omega

/-! ## Snippets -/

/-- The first line that is shown around a line. -/
def firstShown (line : Nat) : Nat := max 1 (line - 2)

/-- The last line that is shown around a line. -/
def lastShown (line : Nat) : Nat := min src.lineCount (line + 2)

/-- A line of the text behind its number. -/
def numberedLine (n : Nat) : String := Context.gutter n ++ src.line n

/-- Carets below a numbered line, from one of its columns on. -/
def carets (line column width : Nat) : String :=
  String.ofList (List.replicate ((Context.gutter line).length + (column - 1)) ' ' ++ List.replicate width '^')

/-- The lines of a text around one of them, each behind its number, and below that one the carets under a
column of it. -/
def Shows (line column : Nat) (shown : String) : Prop :=
  ∃ width, 0 < width ∧ shown = Text.unlines
    ((List.range' (firstShown line) (line + 1 - firstShown line)).map src.numberedLine ++
      [carets line column width] ++
      (List.range' (line + 1) (src.lastShown line - line)).map src.numberedLine)

variable {src}

/-- Several lines of the text, from one of them on. -/
theorem drop_take_lines {n k : Nat} (hn : 1 ≤ n) (hk : n + k ≤ src.lineCount + 1) :
    ((Text.lines src.text).take (n + k - 1)).drop (n - 1) = (List.range' n k).map src.line := by
  have hlength : n + k ≤ (Text.lines src.text).length + 1 := hk
  refine List.ext_getElem ?_ fun i hi hi' => ?_
  · rw [List.length_drop, List.length_take, List.length_map, List.length_range']
    omega
  · rw [List.length_map, List.length_range'] at hi'
    have hindex : n + 1 * i - 1 = n - 1 + i := by omega
    rw [List.getElem_drop, List.getElem_take, List.getElem_map, List.getElem_range', line, hindex,
      List.getD_eq_getElem?_getD, List.getElem?_eq_getElem (by omega), Option.getD_some]

theorem shownLines_eq {line : Nat} (hpos : 1 ≤ line) (hle : line ≤ src.lineCount) :
    ((Text.lines src.text).take (src.lastShown line)).drop (firstShown line - 1) =
      (List.range' (firstShown line) (src.lastShown line + 1 - firstShown line)).map src.line := by
  have hfirst : 1 ≤ firstShown line := Nat.le_max_left ..
  have hlast : firstShown line + (src.lastShown line + 1 - firstShown line) = src.lastShown line + 1 := by
    unfold firstShown lastShown
    omega
  rw [← drop_take_lines hfirst (hlast.trans_le (Nat.add_le_add_right (Nat.min_le_left ..) 1)), hlast,
    Nat.add_sub_cancel]

theorem snippet_eq {line : Nat} (hpos : 1 ≤ line) (hle : line ≤ src.lineCount) :
    snippet src.text line = Text.unlines
      ((List.range' (firstShown line) (src.lastShown line + 1 - firstShown line)).map src.line) := by
  have hfirst : (max 1 ((line : Int) - 2) - 1).toNat = firstShown line - 1 := by
    unfold firstShown
    omega
  have hlast : (min ((Text.lines src.text).length : Int) (line + 2)).toNat = src.lastShown line := by
    unfold lastShown lineCount
    omega
  have hlast_nonneg : ¬ min ((Text.lines src.text).length : Int) (line + 2) < 0 := by omega
  rw [snippet, sublist, if_neg hlast_nonneg, hfirst, hlast, shownLines_eq hpos hle]

theorem lines_snippet {line : Nat} (hpos : 1 ≤ line) (hle : line ≤ src.lineCount) :
    Text.lines (snippet src.text line) =
      (List.range' (firstShown line) (src.lastShown line + 1 - firstShown line)).map src.line := by
  rw [snippet_eq hpos hle]
  refine Text.lines_unlines (fun hnil => ?_) fun l hl => ?_
  · have hlength := congrArg List.length hnil
    rw [List.length_map, List.length_range', List.length_nil] at hlength
    unfold firstShown lastShown at hlength
    omega
  · rw [← shownLines_eq hpos hle] at hl
    exact Text.not_mem_of_mem_lines (List.mem_of_mem_take (List.mem_of_mem_drop hl))

/-- Something is shown around each line of a text that is not empty. -/
theorem snippet_ne_empty {line : Nat} (hpos : 1 ≤ line) (hle : line ≤ src.lineCount) (htext : src.text ≠ "") :
    snippet src.text line ≠ "" := by
  by_cases hone : src.lineCount = 1
  · -- The only line is the whole text.
    have hfirst : firstShown line - 1 = 0 := by
      unfold firstShown
      omega
    have hlast : src.lastShown line = (Text.lines src.text).length := by
      unfold lastShown lineCount at *
      omega
    rw [snippet_eq hpos hle, ← shownLines_eq hpos hle, hfirst, hlast, List.take_length, List.drop_zero,
      Text.unlines_lines]
    exact htext
  · -- Two lines make no empty text.
    intro hempty
    have hlength := congrArg List.length (lines_snippet hpos hle)
    have hlines : (Text.lines "").length = 1 := rfl
    rw [hempty, hlines, List.length_map, List.length_range'] at hlength
    unfold firstShown lastShown at hlength
    omega

end Source

/-! ## Formats -/

namespace Context

theorem numbered_range' (c : Context) (text : Nat → String) (n k : Nat) :
    c.numbered n ((List.range' n k).map text) = (List.range' n k).flatMap fun i : Nat =>
      if (i : Int) = c.line then [gutter i ++ text i, c.marker (gutter i).length] else [gutter i ++ text i] := by
  induction k generalizing n with
  | zero => rfl
  | succ k ih =>
    rw [List.range'_succ, List.map_cons, List.flatMap_cons, numbered, ih]
    split <;> rfl

/-- **Numbering.** Around a line, the marker is directly below that line and nowhere else. -/
theorem numbered_around (c : Context) (text : Nat → String) {first line last : Nat} (hline : c.line = line)
    (hfirst : first ≤ line) (hlast : line ≤ last) :
    c.numbered first ((List.range' first (last + 1 - first)).map text) =
      (List.range' first (line + 1 - first)).map (fun i => gutter i ++ text i) ++
        [c.marker (gutter line).length] ++
        (List.range' (line + 1) (last - line)).map fun i => gutter i ++ text i := by
  have hother : ∀ n k, (∀ i ∈ List.range' n k, i ≠ line) → ((List.range' n k).flatMap fun i : Nat =>
      if (i : Int) = c.line then [gutter i ++ text i, c.marker (gutter i).length] else [gutter i ++ text i]) =
      (List.range' n k).map fun i => gutter i ++ text i := by
    intro n k h
    rw [List.map_eq_flatMap]
    refine List.flatMap_congr fun i hi => if_neg fun hsame => h i hi ?_
    exact Int.ofNat_inj.mp (hsame.trans hline)
  have hupto : List.range' first (line + 1 - first) = List.range' first (line - first) ++ [line] := by
    rw [show line + 1 - first = line - first + 1 by omega, List.range'_concat]
    congr 2
    omega
  have hall : List.range' first (last + 1 - first) =
      List.range' first (line + 1 - first) ++ List.range' (line + 1) (last - line) := by
    rw [show last + 1 - first = line + 1 - first + (last - line) by omega, ← List.range'_append_1,
      show first + (line + 1 - first) = line + 1 by omega]
  rw [numbered_range', hall, hupto, List.append_assoc, List.flatMap_append, List.flatMap_append,
    hother first _ fun i hi => by rw [List.mem_range'_1] at hi; omega,
    hother (line + 1) _ fun i hi => by rw [List.mem_range'_1] at hi; omega, List.flatMap_singleton,
    if_pos hline.symm, List.map_append]
  simp only [List.map_cons, List.map_nil, List.append_assoc, List.cons_append, List.nil_append]

theorem format_of_snippet {c : Context} {shown : String} (h : c.snippet = some shown) (hne : shown ≠ "") :
    c.format = c.location ++ "\n" ++ Text.unlines (c.numbered c.firstLine (Text.lines shown)) := by
  have hshown : c.formatSnippet = Text.unlines (c.numbered c.firstLine (Text.lines shown)) := by
    unfold formatSnippet
    rw [h]
    split
    · contradiction
    · next hempty => exact absurd (Option.some.inj hempty) hne
    · next hsame => rw [Option.some.inj hsame]
  unfold format
  rw [h, hshown]
  split
  · contradiction
  · next hempty => exact absurd (Option.some.inj hempty) hne
  · rfl

end Context

/-- **Contexts.** The context of a span that is in the text is its location and the lines around it, with carets
below. -/
theorem Source.exists_shows {src : Source} {span : Span} {line column : Nat} (hline : span.line = line)
    (hcolumn : span.column = column) (h : src.Contains line column) (htext : src.text ≠ "") :
    ∃ shown, src.Shows line column shown ∧
      (src.context span).format = (src.context span).location ++ "\n" ++ shown := by
  obtain ⟨hpos, hle, hcolumn_pos, -⟩ := h
  have hfirst : (src.context span).firstLine = firstShown line := by
    have hsame : (src.context span).line = line := hline
    unfold Context.firstLine firstShown
    omega
  have hmarker : (src.context span).marker (Context.gutter line).length =
      carets line column (max 1 span.length).toNat := by
    have hsame : (src.context span).column = column := hcolumn
    have hbefore : ((Context.gutter line).length + (src.context span).column - 1 : Int).toNat =
        (Context.gutter line).length + (column - 1) := by omega
    rw [Context.marker, hbefore]
    rfl
  have hsnippet : (src.context span).snippet = some (snippet src.text line) :=
    congrArg (fun n => some (snippet src.text n)) hline
  have hfirst_le : firstShown line ≤ line := max_le hpos (Nat.sub_le ..)
  have hlast_le : line ≤ src.lastShown line := le_min hle (Nat.le_add_right ..)
  refine ⟨_, ⟨(max 1 span.length).toNat, by omega, rfl⟩, ?_⟩
  rw [Context.format_of_snippet hsnippet (snippet_ne_empty hpos hle htext), hfirst, lines_snippet hpos hle,
    Context.numbered_around _ _ hline hfirst_le hlast_le, hmarker]
  rfl

end Typestate
