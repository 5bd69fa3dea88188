import Typestate.Report.Markup
import Typestate.Text.Fields
import Typestate.Unicode.Width

/-!
A console that is as wide as any table. Columns are as wide as their widest cell, cells are aligned to the left with a
space on each side, and the title stands in the middle above, in pieces if it is wider than the table.
-/

namespace Typestate.Report

def repeated (n : Nat) (c : Char) : String := String.ofList (List.replicate n c)

/-- A text with spaces behind it, up to a width. -/
def padded (width : Nat) (cs : List Char) : String :=
  String.ofList cs ++ repeated (width - Unicode.width cs) ' '

/-- The characters at the front of a text that fit into a width, and the rest. -/
def fitting : (width : Nat) → List Char → List Char × List Char
  | _, [] => ([], [])
  | width, c :: rest =>
    if Unicode.charWidth c ≤ width then
      let (taken, left) := fitting (width - Unicode.charWidth c) rest
      (c :: taken, left)
    else ([], c :: rest)

theorem fitting_append (width : Nat) (cs : List Char) :
    (fitting width cs).1 ++ (fitting width cs).2 = cs := by
  induction cs generalizing width with
  | nil => rfl
  | cons c rest ih =>
    unfold fitting
    split
    · simpa using ih _
    · rfl

/-- The text in pieces, each as large as fits into a width. -/
def chunks (width : Nat) (cs : List Char) : List (List Char) :=
  if _h : (fitting width cs).1 = [] ∨ (fitting width cs).2 = [] then [cs]
  else (fitting width cs).1 :: chunks width (fitting width cs).2
termination_by cs.length
decreasing_by
  have := congrArg List.length (fitting_append width cs)
  have := List.length_pos_iff.mpr (not_or.mp _h).1
  simp only [List.length_append] at *
  omega

/-- A text in the middle of a width. An odd space goes behind. -/
def centered (width : Nat) (cs : List Char) : String :=
  let before := (width - Unicode.width cs) / 2
  repeated before ' ' ++ padded (width - before) cs

/-- A ruler: bars as wide as the columns, with marks at the ends and between. -/
def ruler (widths : List Nat) (left bar between right : Char) : String :=
  left.toString ++ String.intercalate between.toString (widths.map fun w => repeated (w + 2) bar) ++
    right.toString

/-- A line of cells, with marks at the ends and between. -/
def cellLine (widths : List Nat) (mark : Char) (cells : List (List Char)) : String :=
  mark.toString ++ " " ++
    String.intercalate (" " ++ mark.toString ++ " ") (List.zipWith padded widths cells) ++ " " ++
    mark.toString

/-- The lines of a row of cells, as many as its highest cell has; the other cells are blank below. -/
def rowLines (widths : List Nat) (mark : Char) (cells : List (List Char)) : List String :=
  let parts := cells.map (Text.fields '\n')
  let height := parts.foldl (fun height part => max height part.length) 1
  (List.range height).map fun i => cellLine widths mark (parts.map fun part => part[i]?.getD [])

/-- The width of a cell: that of its widest line. -/
def cellWidth (cell : List Char) : Nat :=
  (Text.fields '\n' cell).foldl (fun width line => max width (Unicode.width line)) 0

/-- The width of each column: that of its widest cell. -/
def columnWidths (rows : List (List (List Char))) : List Nat :=
  rows.foldl (fun widths row => List.zipWith max widths (row.map cellWidth))
    (List.replicate (rows.headD []).length 0)

/-- The width of a whole table: two spaces and a mark for each column, and one more mark. -/
def tableWidth (widths : List Nat) : Nat := widths.foldl (fun total w => total + w + 3) 1

/-- The lines of a title: its own, in pieces that are no wider than the table. -/
def titleLines (width : Nat) (title : List Char) : List String :=
  ((Text.fields '\n' title).flatMap (chunks width)).map (centered width)

/-- The lines of a table with the given title, heading and rows. -/
def tableLines (title : List Char) (heading : List (List Char)) (rows : List (List (List Char))) :
    List String :=
  let widths := columnWidths (heading :: rows)
  titleLines (tableWidth widths) title ++ [ruler widths '┏' '━' '┳' '┓'] ++
    rowLines widths '┃' heading ++ [ruler widths '┡' '━' '╇' '┩'] ++
    rows.flatMap (rowLines widths '│') ++ [ruler widths '└' '─' '┴' '┘']

/-- The console that is used unless there is another one. -/
def reference : Console where
  shown := shown
  table title headings rows := String.join ((tableLines title headings rows).map (· ++ "\n"))
  paragraph text := String.ofList text ++ "\n"

end Typestate.Report
