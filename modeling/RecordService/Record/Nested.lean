import RecordService.Json.Basic

/-! # Objects within documents

The objects that a chain of keys leads to, through arrays on the way. `Json.objectsAt` lists them and
`Json.modifyAt` changes each of them. -/

namespace RecordService.Json

mutual

/-- The objects at the end of a chain of keys, in order. -/
def objectsAt : List String → Json → List Entries
  | path, .arr items => objectsOf path items
  | [], .obj entries => [entries]
  | key :: rest, .obj entries => objectsUnder key rest entries
  | _, _ => []

def objectsOf (path : List String) : List Json → List Entries
  | [] => []
  | item :: more => objectsAt path item ++ objectsOf path more

/-- The objects below the first entry with the key. -/
def objectsUnder (key : String) (path : List String) : List (String × Json) → List Entries
  | [] => []
  | (k, value) :: more => if k == key then objectsAt path value else objectsUnder key path more

end

mutual

/-- Changes every object at the end of a chain of keys. -/
def modifyAt (change : Entries → Entries) : List String → Json → Json
  | path, .arr items => .arr (modifyOf change path items)
  | [], .obj entries => .obj (change entries)
  | key :: rest, .obj entries => .obj (modifyUnder change key rest entries)
  | _, value => value

def modifyOf (change : Entries → Entries) (path : List String) : List Json → List Json
  | [] => []
  | item :: more => modifyAt change path item :: modifyOf change path more

/-- Changes the objects below the first entry with the key. -/
def modifyUnder (change : Entries → Entries) (key : String) (path : List String) :
    List (String × Json) → List (String × Json)
  | [] => []
  | (k, value) :: more =>
    if k == key then (k, modifyAt change path value) :: more
    else (k, value) :: modifyUnder change key path more

end

end RecordService.Json
