import Typestate.Unicode.Printable

/-!
A text in quotes, as messages show it. Single quotes, unless the text holds one and no double
quote; backslashes, the chosen quote, line feeds, carriage returns and tabs are escaped by a
backslash, and every other character that does not print by its code in hexadecimal.
-/

namespace Typestate.Text

def hexDigit (n : Nat) : Char :=
  if n < 10 then Char.ofNat (48 + n) else Char.ofNat (87 + n)

/-- The last `width` hexadecimal digits of a number. -/
def hex : (width : Nat) → Nat → List Char
  | 0, _ => []
  | w + 1, n => hex w (n / 16) ++ [hexDigit (n % 16)]

/-- A character as it stands inside the quote `q`. -/
def escapeChar (q c : Char) : List Char :=
  if c == '\\' || c == q then ['\\', c]
  else if c == '\n' then ['\\', 'n']
  else if c == '\r' then ['\\', 'r']
  else if c == '\t' then ['\\', 't']
  else if Unicode.isPrintable c then [c]
  else if c.toNat < 0x100 then '\\' :: 'x' :: hex 2 c.toNat
  else if c.toNat < 0x10000 then '\\' :: 'u' :: hex 4 c.toNat
  else '\\' :: 'U' :: hex 8 c.toNat

/-- The quote that a text is put in. -/
def quoteFor (cs : List Char) : Char :=
  if cs.contains '\'' && !cs.contains '"' then '"' else '\''

/-- The text in quotes. -/
def quoted (s : String) : String :=
  let q := quoteFor s.toList
  String.ofList (q :: (s.toList.flatMap (escapeChar q) ++ [q]))

/-- A list of texts in quotes, in brackets and with commas between. -/
def quotedList (ss : List String) : String := "[" ++ String.intercalate ", " (ss.map quoted) ++ "]"

end Typestate.Text
