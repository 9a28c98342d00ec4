import RecordService.Json.Token

/-! # Reading documents

A machine with a stack of open containers turns the tokens into one document. `readRaw?` keeps repeated keys, for
readers that refuse them; `read?` merges them. Containers nest at most 127 deep there, and every value has to be
readable. `readLoosely?` lets the parts pass that nobody may ask for: something stands in their place. -/

namespace RecordService.Json

/-- What stands for a part that is well formed, but has no value. It is a number, so a record without numbers has no
use for it. -/
def unreadable : Json :=
  .num (.int 0)

/-- A container that waits for the value being read. What it holds so far is in reverse. -/
inductive Frame where
  | arr (done : List Json)
  /-- An object; nothing is held for one with an unreadable key. -/
  | obj (done : Option (List (String × Json))) (key : String)

/-- The document of the members read so far. -/
def ofMembers : Option (List (String × Json)) → Json
  | some done => .obj done.reverse
  | none => unreadable

/-- What the next token may be. -/
inductive Expect where
  /-- A value. -/
  | value
  /-- The first item of an array, or its end. -/
  | item
  /-- The first key of an object, or its end. -/
  | member
  /-- The next key of an object. -/
  | key (done : Option (List (String × Json)))
  /-- The colon after a key. -/
  | colon (done : Option (List (String × Json))) (key : String)
  /-- What follows a value that has been read. -/
  | after (value : Json)

/-- The greatest depth of containers. -/
def maxDepth : Nat := 127

/-- What follows the first token of a value that stands in the containers of a stack. -/
def begin? (loose : Bool) (stack : List Frame) : Token → Option Expect
  | .null => some (.after .null)
  | .bool b => some (.after (.bool b))
  | .num n => some (.after (.num n))
  | .str s => some (.after (.str s))
  | .unreadable => if loose then some (.after unreadable) else none
  | .openArr => if loose || stack.length < maxDepth then some .item else none
  | .openObj => if loose || stack.length < maxDepth then some .member else none
  | _ => none

/-- What follows the key of a member, behind the members read so far. -/
def beginMember? (loose : Bool) (done : Option (List (String × Json))) : Token → Option Expect
  | .str key => some (.colon done key)
  | .unreadable => if loose then some (.colon none "") else none
  | _ => none

/-- One token: what is expected next, and the containers then open. -/
def advance? (loose : Bool) (stack : List Frame) : Expect → Token → Option (Expect × List Frame)
  | .value, t => (begin? loose stack t).map (·, stack)
  | .item, .closeArr => some (.after (.arr []), stack)
  | .item, t => (begin? loose (.arr [] :: stack) t).map (·, .arr [] :: stack)
  | .member, .closeObj => some (.after (.obj []), stack)
  | .member, t => (beginMember? loose (some []) t).map (·, stack)
  | .key done, t => (beginMember? loose done t).map (·, stack)
  | .colon done key, .colon => some (.value, .obj done key :: stack)
  | .after v, t =>
    match stack, t with
    | .arr done :: rest, .comma => some (.value, .arr (v :: done) :: rest)
    | .arr done :: rest, .closeArr => some (.after (.arr (v :: done).reverse), rest)
    | .obj done key :: rest, .comma => some (.key (done.map ((key, v) :: ·)), rest)
    | .obj done key :: rest, .closeObj => some (.after (ofMembers (done.map ((key, v) :: ·))), rest)
    | _, _ => none
  | _, _ => none

/-- Reads all tokens as one document. -/
def ofTokens? (loose : Bool) (expect : Expect) (stack : List Frame) : List Token → Option Json
  | [] =>
    match expect, stack with
    | .after v, [] => some v
    | _, _ => none
  | t :: ts =>
    match advance? loose stack expect t with
    | some (expect, stack) => ofTokens? loose expect stack ts
    | none => none

/-- The document of a text, with repeated keys as they stand. -/
def readRaw? (text : String) : Option Json :=
  (scan? text).bind (ofTokens? false .value [])

/-- The document of a text, with repeated keys as they stand, of which a reader looks at some parts only. Values that
have none, and objects with such a key, stand as `unreadable`; containers nest as deep as they like. -/
def readLoosely? (text : String) : Option Json :=
  (scan? text).bind (ofTokens? true .value [])

/-- The document of a text. -/
def read? (text : String) : Option Json :=
  (readRaw? text).map settle

end RecordService.Json
