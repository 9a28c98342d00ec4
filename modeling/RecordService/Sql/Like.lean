import RecordService.Sql.Cell
import RecordService.Text.Accent
import RecordService.Text.Utf8

/-! # Text functions of the store

The store folds text with `unaccent` and matches it with `LIKE`: `%` stands for any run of characters and `_` for
any one, a backslash makes the next character stand for itself, and letters of the ASCII range match in both cases.
A text ends at its first zero character.

`accept` says what a match is. `fits` finds out with a table, part by part from the end of the pattern, so that its
work is the product of the two lengths; `fits_eq_accept` says that the two agree. -/

namespace RecordService

/-- One part of a pattern. -/
inductive PatternPart where
  | anyRun
  | anyOne
  | char (c : Char)
deriving DecidableEq, Repr

namespace PatternPart

/-- The parts of a pattern. A backslash at the end makes it one that nothing matches. -/
def read? : List Char → Option (List PatternPart)
  | [] => some []
  | ['\\'] => none
  | '\\' :: c :: rest => (read? rest).map (char c :: ·)
  | '%' :: rest => (read? rest).map (anyRun :: ·)
  | '_' :: rest => (read? rest).map (anyOne :: ·)
  | c :: rest => (read? rest).map (char c :: ·)

/-- All endings of a text, the whole text first. -/
def endings : List Char → List (List Char)
  | [] => [[]]
  | c :: rest => (c :: rest) :: endings rest

/-- Whether a text matches the parts of a pattern. -/
def accept : List PatternPart → List Char → Bool
  | [], text => text.isEmpty
  | anyRun :: parts, text => (endings text).any (accept parts)
  | anyOne :: parts, text =>
    match text with
    | [] => false
    | _ :: rest => accept parts rest
  | char c :: parts, text =>
    match text with
    | [] => false
    | d :: rest => c.toLower == d.toLower && accept parts rest

/-- For each ending of a text, whether it starts with a character for which `p` holds, and what follows has passed. -/
def shift (p : Char → Bool) : List Char → List Bool → List Bool
  | c :: text, _ :: passed => (p c && passed.headD false) :: shift p text passed
  | _, _ => [false]

/-- For each ending of a text, whether it or one of its own endings has passed. -/
def spread : List Bool → List Bool
  | [] => []
  | b :: passed =>
    let rest := spread passed
    (b || rest.headD false) :: rest

/-- For each ending of a text, whether it matches the parts of a pattern. -/
def table (text : List Char) : List PatternPart → List Bool
  | [] => (endings text).map List.isEmpty
  | anyRun :: parts => spread (table text parts)
  | anyOne :: parts => shift (fun _ => true) text (table text parts)
  | char c :: parts => shift (fun d => c.toLower == d.toLower) text (table text parts)

/-- Whether a text matches the parts of a pattern, by the table. -/
def fits (parts : List PatternPart) (text : List Char) : Bool :=
  (table text parts).headD false

theorem headD_map_endings (f : List Char → Bool) (text : List Char) : ((endings text).map f).headD false = f text := by
  cases text <;> rfl

theorem spread_map_endings (f : List Char → Bool) (text : List Char) :
    spread ((endings text).map f) = (endings text).map fun t => (endings t).any f := by
  induction text with
  | nil => simp [endings, spread]
  | cons c text ih =>
    simp only [endings, List.map_cons, spread, ih, List.any_cons]
    rw [headD_map_endings]

theorem shift_map_endings (p : Char → Bool) (f g : List Char → Bool) (hnil : g [] = false)
    (hcons : ∀ c t, g (c :: t) = (p c && f t)) (text : List Char) :
    shift p text ((endings text).map f) = (endings text).map g := by
  induction text with
  | nil => simp [endings, shift, hnil]
  | cons c text ih =>
    simp only [endings, List.map_cons, shift, ih, hcons]
    rw [headD_map_endings]

theorem table_eq_map_accept (text : List Char) (parts : List PatternPart) :
    table text parts = (endings text).map (accept parts) := by
  induction parts with
  | nil => rfl
  | cons part parts ih =>
    cases part with
    | anyRun =>
      rw [table, ih, spread_map_endings]
      rfl
    | anyOne =>
      rw [table, ih]
      exact shift_map_endings _ _ _ rfl (fun _ _ => rfl) text
    | char c =>
      rw [table, ih]
      exact shift_map_endings _ _ _ rfl (fun _ _ => rfl) text

/-- The table answers as the definition of a match. -/
theorem fits_eq_accept (parts : List PatternPart) (text : List Char) : fits parts text = accept parts text := by
  rw [fits, table_eq_map_accept, headD_map_endings]

end PatternPart

/-- The characters of a text as they are matched: those before the first zero, with U+FFFE and U+FFFF, which are no
characters, as the replacement character. -/
def matchedChars (text : String) : List Char :=
  (text.toList.takeWhile (· != '\x00')).map fun c => if c == '\uFFFE' || c == '\uFFFF' then '\uFFFD' else c

/-- Whether a text matches a pattern. -/
def likeText (text pattern : String) : Bool :=
  match PatternPart.read? (matchedChars pattern) with
  | some parts => PatternPart.fits parts (matchedChars text)
  | none => false

namespace Cell

/-- The cell as the store keeps it: truth values are integers there. -/
def stored : Cell → Cell
  | bool b => int (if b then 1 else 0)
  | float x => if x.isNaN then null else float x
  | c => c

/-- The folded text of a cell. -/
def unaccent : Cell → Cell
  | null => null
  | bool b => text (if b then "1" else "0")
  | int i => text (toString i)
  | float x => if x.isNaN then null else text (x.write .plain)
  | text s => text (Text.foldAccents s)
  | bytes b => text (Text.foldAccents (String.ofList (Text.Utf8.decode b)))

/-- Whether the folded text of a cell matches the folded text of a pattern; null if one of them is null. -/
def like (c pattern : Cell) : Cell :=
  match c.unaccent, pattern.unaccent with
  | text s, text p => int (if likeText s p then 1 else 0)
  | _, _ => null

end Cell
end RecordService
