import RecordService.Text.LowerCase

/-! # Folding accents

`foldAccents` lower-cases a text and writes the accented Latin letters of the table without their marks; the
ligatures become two letters. Every text comparison of the store goes through it. -/

namespace RecordService.Text

/-- The plain spelling of each accented letter, in lower case. -/
def accentTable : List (List Char × List Char) :=
  [(['à', 'á', 'â', 'ã', 'ä', 'å', 'ā', 'ă', 'ą'], ['a']),
   (['ç', 'ć', 'č'], ['c']),
   (['ď', 'đ'], ['d']),
   (['è', 'é', 'ê', 'ë', 'ē', 'ė', 'ę', 'ě'], ['e']),
   (['ğ'], ['g']),
   (['ì', 'í', 'î', 'ï', 'ī', 'į', 'ı'], ['i']),
   (['ł', 'ľ'], ['l']),
   (['ñ', 'ń', 'ň'], ['n']),
   (['ò', 'ó', 'ô', 'õ', 'ö', 'ø', 'ō', 'ő'], ['o']),
   (['ř'], ['r']),
   (['ś', 'š', 'ş'], ['s']),
   (['ť', 'ţ'], ['t']),
   (['ù', 'ú', 'û', 'ü', 'ū', 'ů', 'ű', 'ų'], ['u']),
   (['ý', 'ÿ'], ['y']),
   (['ź', 'ż', 'ž'], ['z']),
   (['ß'], ['s', 's']),
   (['æ'], ['a', 'e']),
   (['œ'], ['o', 'e'])]

/-- One lower-case character without its mark. -/
def plainChar (c : Char) : List Char :=
  match accentTable.find? (·.1.contains c) with
  | some (_, plain) => plain
  | none => [c]

/-- The lower case of the text, without the marks of the table. -/
def foldChars (cs : List Char) : List Char :=
  (lower cs).flatMap plainChar

def foldAccents (text : String) : String :=
  String.ofList (foldChars text.toList)

theorem foldChars_append (s t : List Char) : foldChars (s ++ t) = foldChars s ++ foldChars t := by
  simp [foldChars, lower]

end RecordService.Text
