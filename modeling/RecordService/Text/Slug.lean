import RecordService.Text.Accent

/-! # Slugs

A slug is the text folded to plain lower case, with every run of other characters turned into one dash between
two letters or digits, and none at either end. -/

namespace RecordService.Text

/-- Letters `a` to `z` and `A` to `Z`, and digits `0` to `9`. -/
def isAsciiAlphanumeric (c : Char) : Bool :=
  c.isAlpha || c.isDigit

/-- Writes the slug of the rest of a text, given whether something stands before it and whether a dash is due. -/
def slugChars (started dash : Bool) : List Char → List Char
  | [] => []
  | c :: rest =>
    if isAsciiAlphanumeric c then
      if dash && started then '-' :: c :: slugChars true false rest else c :: slugChars true false rest
    else slugChars started true rest

/-- The dash-separated form of a text. -/
def slugify (text : String) : String :=
  String.ofList (slugChars false false (foldChars text.toList))

end RecordService.Text
