import RecordService.Text.Blank

/-! # Cutting a text at a separator

`split` keeps every part, empty ones too. `pieces` trims the parts and drops the empty ones; it reads the lists of
the request language, such as `a, b` and `a.b`. -/

namespace RecordService.Text

/-- The parts between occurrences of `sep`; one part more than there are occurrences. -/
def split (sep : Char) : List Char → List (List Char)
  | [] => [[]]
  | c :: rest =>
    if c = sep then [] :: split sep rest
    else
      match split sep rest with
      | [] => [[c]]
      | part :: parts => (c :: part) :: parts

theorem split_ne_nil (sep : Char) (cs : List Char) : split sep cs ≠ [] := by
  cases cs with
  | nil => simp [split]
  | cons c rest =>
    unfold split
    split
    · simp
    · split <;> simp

/-- The trimmed parts that are not empty. -/
def pieces (sep : Char) (text : String) : List String :=
  ((split sep text.toList).map trim).filter (!·.isEmpty) |>.map String.ofList

/-- All parts as texts. -/
def parts (sep : Char) (text : String) : List String :=
  (split sep text.toList).map String.ofList

end RecordService.Text
