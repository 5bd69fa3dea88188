import Typestate.Report.Console
import Typestate.Report.Picture

/-!
Markup with names of pictures in it. A tag sets or ends a style, and its parameters are not looked at. Everything else
is shown as it stands, but for backslashes that escape a bracket and for the names of pictures.
-/

namespace Typestate.Report

/-- Short names of styles, and what they stand for. -/
def shortNames : List (String × String) :=
  [("b", "bold"), ("c", "conceal"), ("d", "dim"), ("i", "italic"), ("o", "overline"), ("r", "reverse"),
    ("s", "strike"), ("u", "underline"), ("uu", "underline2")]

/-- The name of a style, in which the case of letters and blanks at the ends do not count. -/
def styleName (cs : List Char) : List Char :=
  let name := (Text.trim cs).flatMap Unicode.lower
  ((shortNames.find? fun n => n.1.toList = name).map (·.2.toList)).getD name

/-- The styles that are set after a tag, or nothing if the tag ends a style that is not. The name of
a style goes up to an equals sign; a tag without a name ends the latest style. -/
def applyTag (styles : List (List Char)) (content : List Char) : Option (List (List Char)) :=
  match content.takeWhile (· != '='), styles with
  | '/' :: name, styles =>
    match Text.trim name, styles with
    | [], [] => none
    | [], _ :: outer => some outer
    | name, styles =>
      if styles.contains (styleName name) then some (styles.erase (styleName name)) else none
  | name, styles => some (styleName name :: styles)

/-- The text after the backslashes at its front. -/
def afterSlashes (cs : List Char) : List Char := cs.dropWhile (· == '\\')

theorem length_afterSlashes_le (cs : List Char) : (afterSlashes cs).length ≤ cs.length :=
  (List.dropWhile_suffix _).length_le

/-- Put a text in front of the first piece. -/
def extendFirstBy (front : List Char) : List (List Char) → List (List Char)
  | [] => [front]
  | piece :: pieces => (front ++ piece) :: pieces

/-- The pieces of text between the tags, when the given styles are set in front; nothing if a tag ends
a style that is not set. Of the backslashes in front of a tag every second one is shown, and an odd one
makes the tag a piece of text. One backslash in front of any other bracket is dropped. -/
def piecesFrom (styles : List (List Char)) (cs : List Char) : Option (List (List Char)) :=
  match cs with
  | [] => some [[]]
  | c :: rest =>
    if c == '\\' then
      let count := rest.length - (afterSlashes rest).length + 1
      let slashes (n : Nat) : List Char := List.replicate n '\\'
      match _h : tag? (afterSlashes rest) with
      | some (content, behind) =>
        if count % 2 = 0 then
          (applyTag styles content).bind fun styles =>
            (piecesFrom styles behind).map fun pieces => [] :: slashes (count / 2) :: pieces
        else (piecesFrom styles behind).map fun pieces =>
          [] :: slashes (count / 2) :: ('[' :: content ++ [']']) :: pieces
      | none =>
        let kept := if (afterSlashes rest).head? == some '[' then count - 1 else count
        (piecesFrom styles (afterSlashes rest)).map (extendFirstBy (slashes kept))
    else match _h : tag? (c :: rest) with
      | some (content, behind) =>
        (applyTag styles content).bind fun styles => (piecesFrom styles behind).map ([] :: ·)
      | none => (piecesFrom styles rest).map (Text.extendFirst c)
termination_by cs.length
decreasing_by
  · have := length_tag?_lt _h
    have := length_afterSlashes_le rest
    simp only [List.length_cons]
    omega
  · have := length_tag?_lt _h
    have := length_afterSlashes_le rest
    simp only [List.length_cons]
    omega
  · have := length_afterSlashes_le rest
    simp only [List.length_cons]
    omega
  · exact length_tag?_lt _h
  · simp

/-- What is shown of a cell. -/
def shown (cell : String) : Option (List Char) :=
  (piecesFrom [] cell.toList).map fun pieces =>
    (pieces.flatMap withPictures).filter (!isConsoleControl ·)

end Typestate.Report
