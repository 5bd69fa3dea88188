/-!
Blank characters, the words between them, and the text with every run of blanks made one space.
-/

namespace Typestate.Text

/-- Every separator character, the ASCII controls used as separators, and the next-line control. -/
def isBlank (c : Char) : Bool :=
  let n := c.toNat
  (9 ≤ n && n ≤ 13) || (28 ≤ n && n ≤ 32) || n == 0x85 || n == 0xA0 || n == 0x1680 ||
    (0x2000 ≤ n && n ≤ 0x200A) || n == 0x2028 || n == 0x2029 || n == 0x202F || n == 0x205F ||
    n == 0x3000

/-- Put a character in front of the first piece. -/
def extendFirst (c : Char) : List (List Char) → List (List Char)
  | [] => [[c]]
  | w :: ws => (c :: w) :: ws

/-- The maximal runs without a blank, in order. -/
def words : List Char → List (List Char)
  | [] => []
  | c :: rest =>
    if isBlank c then words rest
    else match rest with
      | [] => [[c]]
      | d :: _ => if isBlank d then [c] :: words rest else extendFirst c (words rest)

/-- The words with one space between them. -/
def normalize (cs : List Char) : List Char := List.intercalate [' '] (words cs)

/-- The text without the blanks at its end. -/
def trimEnd (cs : List Char) : List Char := (cs.reverse.dropWhile isBlank).reverse

/-- The text without the blanks at its two ends. -/
def trim (cs : List Char) : List Char := trimEnd (cs.dropWhile isBlank)

/-- The words of a text with one space between them. -/
def normalizeString (s : String) : String := String.ofList (normalize s.toList)

end Typestate.Text
