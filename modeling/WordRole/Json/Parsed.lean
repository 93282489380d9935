import WordRole.Json.Lexeme

/-!
# JSON values from text

A value is put together from its lexemes one by one.  The arrays and objects that are still open are
kept in a list, so that nesting may be as deep as the text is long.
-/

namespace WordRole.Json

/-- An array or an object that waits for a value. -/
inductive Frame where
  /-- the items before the value, last first -/
  | array (items : List Json)
  /-- the members before the value's, last first, and the value's name -/
  | object (members : List (Option String × Json)) (name : Option String)
deriving Repr, Inhabited

/-- What has been read, and what may come next. -/
inductive Reading where
  /-- a value -/
  | value (stack : List Frame)
  /-- the first item of an array, or its end -/
  | arrayStart (stack : List Frame)
  /-- another item of an array, or its end -/
  | afterItem (items : List Json) (stack : List Frame)
  /-- the first member of an object, or its end -/
  | objectStart (stack : List Frame)
  /-- the name of a member -/
  | memberName (members : List (Option String × Json)) (stack : List Frame)
  /-- the separator after a member's name -/
  | afterName (members : List (Option String × Json)) (name : Option String) (stack : List Frame)
  /-- another member of an object, or its end -/
  | afterMember (members : List (Option String × Json)) (stack : List Frame)
  /-- nothing -/
  | finished (v : Json)
deriving Repr, Inhabited

namespace Reading

/-- what comes after a value that is complete -/
def completed (v : Json) : List Frame → Reading
  | [] => finished v
  | .array items :: stack => afterItem (v :: items) stack
  | .object members name :: stack => afterMember ((name, v) :: members) stack

/-- what comes after the first lexeme of a value -/
def begun (stack : List Frame) : Lexeme → Option Reading
  | .null => some (completed .null stack)
  | .bool b => some (completed (.bool b) stack)
  | .number literal => some (completed (.number literal) stack)
  | .string text => some (completed (.string text) stack)
  | .beginArray => some (arrayStart stack)
  | .beginObject => some (objectStart stack)
  | _ => none

/-- what comes after one more lexeme -/
def next : Reading → Lexeme → Option Reading
  | value stack, l => begun stack l
  | arrayStart stack, .endArray => some (completed (.array []) stack)
  | arrayStart stack, l => begun (.array [] :: stack) l
  | afterItem items stack, .valueSeparator => some (value (.array items :: stack))
  | afterItem items stack, .endArray => some (completed (.array items.reverse) stack)
  | objectStart stack, .endObject => some (completed (.object []) stack)
  | objectStart stack, .string name => some (afterName [] name stack)
  | memberName members stack, .string name => some (afterName members name stack)
  | afterName members name stack, .nameSeparator => some (value (.object members name :: stack))
  | afterMember members stack, .valueSeparator => some (memberName members stack)
  | afterMember members stack, .endObject => some (completed (.object members.reverse) stack)
  | _, _ => none

/-- the value that has been read, if nothing is missing -/
def result? : Reading → Option Json
  | finished v => some v
  | _ => none

/-- what comes after a text of lexemes and white space -/
def run (r : Reading) : List Char → Option Reading
  | [] => some r
  | c :: cs =>
    if Lexeme.isSpace c then r.run cs
    else match _h : Lexeme.first? (c :: cs) with
      | none => none
      | some (l, rest) =>
        match r.next l with
        | none => none
        | some r => r.run rest
termination_by s => s.length
decreasing_by
  · simp
  · exact Lexeme.length_first?_lt _h

end Reading

def parse? (s : String) : Option Json := ((Reading.value []).run s.toList).bind Reading.result?

end WordRole.Json
