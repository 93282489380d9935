/-!
# JSON values

A value keeps what its text says: numbers as they are written, members in order and with
repetitions.  A string is `none` when an escape in it stands for half a surrogate pair, since no
text holds that.
-/

namespace WordRole

inductive Json where
  | null
  | bool (b : Bool)
  | number (literal : List Char)
  | string (text : Option String)
  | array (items : List Json)
  | object (members : List (Option String × Json))
deriving Repr, Inhabited

namespace Json

def text (s : String) : Json := .string (some s)

def nat (n : Nat) : Json := .number (toString n).toList

/-- a text that may be missing -/
def textOrNull : Option String → Json
  | some s => .text s
  | none => .null

/-- named values as an object -/
def record (fields : List (String × Json)) : Json := .object (fields.map fun f => (some f.1, f.2))

/-! ## Reading records and words -/

/-- The values of named fields.  They may be given as the members of an object, each at most once
and beside members of other names, or as the items of an array in order, from which the last ones
may be missing. -/
def fields? (names : List String) : Json → Option (List (Option Json))
  | .object members =>
    let named (n : String) := members.filter fun m => m.1 == some n
    if members.all (·.1.isSome) && names.all fun n => (named n).length ≤ 1 then
      some (names.map fun n => (named n).head?.map (·.2))
    else none
  | .array items =>
    if items.length ≤ names.length then
      some ((List.range names.length).map fun i => items[i]?)
    else none
  | _ => none

/-- a field that may be missing or null -/
def optional? {α : Type} (read : Json → Option α) : Option Json → Option (Option α)
  | none | some .null => some none
  | some v => (read v).map some

def text? : Json → Option String
  | .string text => text
  | _ => none

/-- a word for one of several things: a text, or an object with that name and no value -/
def word? : Json → Option String
  | .string text => text
  | .object [(name, .null)] => name
  | _ => none

def items? : Json → Option (List Json)
  | .array items => some items
  | _ => none

def valueOfDigits (cs : List Char) : Nat :=
  cs.foldl (fun n c => 10 * n + (c.toNat - '0'.toNat)) 0

/-- a natural number that fits in 64 bits, written without sign, point or exponent -/
def nat64? : Json → Option Nat
  | .number literal =>
    if literal.all Char.isDigit && valueOfDigits literal < UInt64.size then
      some (valueOfDigits literal)
    else none
  | _ => none

end Json

end WordRole
