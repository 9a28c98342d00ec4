import RecordService.Text.Pieces

/-! # Paths

A path names a column or a relation by the relations that lead to it: `author.name`. Reading one trims its segments
and drops the empty ones; the empty path is the root table itself. -/

namespace RecordService

structure Path where
  segments : List String
deriving DecidableEq, Repr

namespace Path

def root : Path := ⟨[]⟩

/-- The path of a dotted text. -/
def ofText (text : String) : Path :=
  ⟨Text.pieces '.' text⟩

/-- The dotted text of a path. -/
def text (p : Path) : String :=
  String.intercalate "." p.segments

/-- The path one segment further. -/
def child (p : Path) (segment : String) : Path :=
  ⟨p.segments ++ [segment]⟩

def isEmpty (p : Path) : Bool :=
  p.segments.isEmpty

def last? (p : Path) : Option String :=
  p.segments.getLast?

/-- All segments but the last. -/
def parent (p : Path) : Path :=
  ⟨p.segments.dropLast⟩

/-- Whether the path ends in `*`. -/
def isWildcard (p : Path) : Bool :=
  p.last? == some "*"

@[simp] theorem text_root : root.text = "" := rfl

@[simp] theorem segments_child (p : Path) (s : String) : (p.child s).segments = p.segments ++ [s] := rfl

end Path

/-- The paths of a list of comma-separated lists. -/
def Path.listOf (items : List String) : List Path :=
  (items.flatMap (Text.pieces ',')).map Path.ofText

end RecordService
