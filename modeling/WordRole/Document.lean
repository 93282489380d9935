import WordRole.CodeUnit
import WordRole.Json.Parsed
import WordRole.Json.Written

/-!
# Token documents

A token document is a JSON value that lists the slotted tokens of a unit.  A document that has the
right form is checked token by token: texts are not empty, positions count from 1, and no token
stands before the one that precedes it.
-/

namespace WordRole

/-- The tokens of a unit, with the unit's name where it is known. -/
structure Document where
  unit : Option String
  tokens : List SlottedToken
deriving DecidableEq, Repr, Inhabited

def CodeUnit.document (u : CodeUnit) : Document := ⟨some u.name, u.tokens⟩

namespace Document

/-! ## Documents and JSON -/

/-- a token as a value; a token without a slot has no such member -/
def tokenToJson (t : SlottedToken) : Json :=
  .record <|
    [("kind", .text t.token.kind.word), ("text", .text t.token.text),
     ("line", .nat t.token.position.line), ("column", .nat t.token.position.column)] ++
      (t.slot.map fun slot => ("slot", Json.text slot.word)).toList

def toJson (d : Document) : Json :=
  .record <|
    (d.unit.map fun unit => ("unit", Json.text unit)).toList ++
      [("tokens", .array (d.tokens.map tokenToJson))]

def tokenOfJson? (v : Json) : Option SlottedToken := do
  match ← v.fields? ["kind", "text", "line", "column", "slot"] with
  | [kind, text, line, column, slot] =>
    let kind ← (← kind).word?
    let text ← (← text).text?
    let line ← (← line).nat64?
    let column ← (← column).nat64?
    let slot ← Json.optional? (fun v => v.word?.bind Slot.ofWord?) slot
    pure ⟨⟨← TokenKind.ofWord? kind, text, ⟨line, column⟩⟩, slot⟩
  | _ => none

def ofJson? (v : Json) : Option Document := do
  match ← v.fields? ["unit", "tokens"] with
  | [unit, tokens] =>
    let unit ← Json.optional? Json.text? unit
    let tokens ← (← (← tokens).items?).mapM tokenOfJson?
    pure ⟨unit, tokens⟩
  | _ => none

/-! ## Checks -/

/-- Why a text is no document for a unit. -/
inductive Fault where
  /-- the text is no JSON value of the form of a document -/
  | malformed
  | emptyText (index : Nat)
  | zeroPosition (index : Nat) (position : Position)
  | outOfOrder (index : Nat) (position : Position)
deriving DecidableEq, Repr, Inhabited

/-- the first fault of a token, after a token at `last` -/
def tokenFault? (last : Option Position) (index : Nat) (t : Token) : Option Fault :=
  if t.text.isEmpty then some (.emptyText index)
  else if t.position.line = 0 || t.position.column = 0 then some (.zeroPosition index t.position)
  else if last.any fun p => t.position.Precedes p then some (.outOfOrder index t.position)
  else none

/-- the first fault of a list of tokens that follow a token at `last` -/
def fault? (last : Option Position) (index : Nat) : List SlottedToken → Option Fault
  | [] => none
  | t :: ts =>
    (tokenFault? last index t.token).or (fault? (some t.token.position) (index + 1) ts)

/-- What is wrong with a unit that comes from a document. -/
structure Error where
  unit : String
  fault : Fault
deriving DecidableEq, Repr, Inhabited

def Error.message (e : Error) : String :=
  match e.fault with
  | .malformed => s!"{e.unit}: malformed token document"
  | .emptyText index => s!"{e.unit}: token {index} has empty text"
  | .zeroPosition index position =>
    s!"{e.unit}: token {index} has position {position.text}; lines and columns start at 1"
  | .outOfOrder index position =>
    s!"{e.unit}: token {index} at {position.text} comes before the token preceding it"

/-- the unit that a document lists, under a name of its own or the one given -/
def codeUnit (d : Document) (fallback : String) : Except Error CodeUnit :=
  let name := d.unit.getD fallback
  match fault? none 0 d.tokens with
  | some fault => .error ⟨name, fault⟩
  | none => .ok ⟨name, d.tokens, []⟩

end Document

def CodeUnit.ofDocument (fallback text : String) : Except Document.Error CodeUnit :=
  match (Json.parse? text).bind Document.ofJson? with
  | none => .error ⟨fallback, .malformed⟩
  | some d => d.codeUnit fallback

end WordRole
