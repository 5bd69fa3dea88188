import Typestate.Report.PictureTable
import Typestate.Text.Fields
import Typestate.Unicode.LetterCase

/-!
Pictures in a console text. The name of a picture between two colons stands for the picture; a name
may ask for a tone of the skin, and for the picture or the plain form of the character.
-/

namespace Typestate.Report

/-- What a name stands for in a table. -/
def named? (table : String) (name : List Char) : Option (List Char) :=
  (Text.lines table).findSome? fun line =>
    let words := Text.words line.toList
    if words.dropLast.contains name then words.getLast? else none

/-- The flag of a region: its two letters as signs of their own. -/
def flag (region : List Char) : List Char :=
  region.map fun c => Char.ofNat (0x1F1E6 + (c.toNat - 'A'.toNat))

/-- The flag with a name. -/
def flag? (name : List Char) : Option (List Char) :=
  match "flag_for_".toList.isPrefixOf? name with
  | some name => ((named? flagTable name).or (named? prefacedFlagTable name)).map flag
  | none => ((named? flagTable name).or (named? bareFlagTable name)).map flag

/-- The ends of names that ask for a tone of the skin, and the signs of the tones. -/
def tones : List (String × Char) :=
  [("_light_skin_tone", Char.ofNat 0x1F3FB), ("_medium-light_skin_tone", Char.ofNat 0x1F3FC),
    ("_medium_skin_tone", Char.ofNat 0x1F3FD), ("_medium-dark_skin_tone", Char.ofNat 0x1F3FE),
    ("_dark_skin_tone", Char.ofNat 0x1F3FF)]

/-- A picture in a tone. The sign stands behind the first character, instead of a selector there. -/
def withTone (tone : Char) : List Char → List Char
  | [] => []
  | c :: '\uFE0F' :: rest => c :: tone :: rest
  | c :: rest => c :: tone :: rest

/-- The picture of a person whose name asks for a tone. -/
def tonedPicture? (name : List Char) : Option (List Char) :=
  tones.findSome? fun (ending, tone) => do
    let name ← ending.toList.isSuffixOf? name
    if (Text.words tonedPictures.toList).contains name then
      (named? pictureTable name).map (withTone tone)
    else none

/-- The picture with a name in small letters. -/
def picture? (name : List Char) : Option (List Char) :=
  (named? pictureTable name).or ((flag? name).or (tonedPicture? name))

/-- What is shown instead of a name between colons, in capital or small letters: the picture, and
behind it the selector that the name asks for. -/
def pictured? (content : List Char) : Option (List Char) :=
  let small (name : List Char) : List Char := name.flatMap Unicode.lower
  match "-text".toList.isSuffixOf? content, "-emoji".toList.isSuffixOf? content with
  | some name, _ => (picture? (small name)).map (· ++ ['\uFE0E'])
  | none, some name => (picture? (small name)).map (· ++ ['\uFE0F'])
  | none, none => picture? (small content)

/-- The text between a colon and the next one, without blanks, and the text after that one. -/
def betweenColons? : List Char → Option (List Char × List Char)
  | ':' :: rest =>
    let content := rest.takeWhile fun c => c != ':' && !Text.isBlank c
    let behind := rest.drop content.length
    if behind.head? == some ':' then some (content, behind.tail) else none
  | _ => none

theorem length_betweenColons?_lt {cs content behind : List Char}
    (h : betweenColons? cs = some (content, behind)) : behind.length < cs.length := by
  unfold betweenColons? at h
  split at h
  · simp only [Option.ite_none_right_eq_some, Option.some.injEq, Prod.mk.injEq] at h
    obtain ⟨_, _, rfl⟩ := h
    simp only [List.length_tail, List.length_drop, List.length_cons]
    omega
  · exact absurd h (by simp)

/-- The text with pictures instead of their names. What stands between two colons and is no name stays
with both colons. -/
def withPictures (cs : List Char) : List Char :=
  match cs with
  | [] => []
  | c :: rest =>
    match _h : betweenColons? (c :: rest) with
    | some (content, behind) =>
      (pictured? content).getD (':' :: content ++ [':']) ++ withPictures behind
    | none => c :: withPictures rest
termination_by cs.length
decreasing_by
  · exact length_betweenColons?_lt _h
  · simp

end Typestate.Report
