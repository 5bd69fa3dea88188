/-!
A console on which tables are printed. What it prints is written in its markup: a tag stands in square brackets and
starts with a small letter, `#`, `/` or `@`.
-/

namespace Typestate.Report

/-- A console knows what is shown of a text in its markup, unless that is in error, and it lays out what is shown as a
table, with a title and headings, or as a paragraph. -/
structure Console where
  shown : String → Option (List Char)
  table : (title : List Char) → (headings : List (List Char)) → (rows : List (List (List Char))) → String
  paragraph : List Char → String

/-- Moves the place where a console writes, or rings its bell. Such controls are not shown. -/
def isConsoleControl (c : Char) : Bool :=
  ['\x07', '\x08', '\x0b', '\x0c', '\r'].contains c

/-- The character may be the first of a tag. -/
def startsTag (c : Char) : Bool :=
  ('a' ≤ c && c ≤ 'z') || c == '#' || c == '/' || c == '@'

/-- The content of a tag whose opening bracket is the first character, and the text after the tag. -/
def tag? : List Char → Option (List Char × List Char)
  | '[' :: c :: rest =>
    let content := rest.takeWhile fun c => c != '[' && c != ']'
    let after := rest.drop content.length
    if startsTag c && after.head? == some ']' then some (c :: content, after.tail) else none
  | _ => none

theorem length_tag?_lt {cs content after : List Char} (h : tag? cs = some (content, after)) :
    after.length < cs.length := by
  unfold tag? at h
  split at h
  · simp only [Option.ite_none_right_eq_some, Option.some.injEq, Prod.mk.injEq] at h
    obtain ⟨_, _, rfl⟩ := h
    simp only [List.length_tail, List.length_drop, List.length_cons]
    omega
  · exact absurd h (by simp)

end Typestate.Report
