import WordRole.Toml.Scalar

/-!
# TOML documents

A document is a list of lines, each of them empty, a comment, a key with its value, or a header.
Arrays may run over several lines, inline tables may not.
-/

namespace WordRole.Toml.Grammar

open Text (Reader)
open Text.Reader

/-- an array of the values that a reader takes; a comma may follow the last one -/
def arrayOf (item : Reader Toml) : Reader Toml := do
  let _ ← char '['
  let items ← sepBy (gap *> item <* gap) (char ',')
  let _ ← if items.isEmpty then pure none else optional (char ',')
  gap
  let _ ← char ']'
  pure (.array items)

/-- a key with a value that a reader takes -/
def entryOf (item : Reader Toml) : Reader (List String × String × Toml) := do
  let (path, name) ← key
  let v ← char '=' *> spaces *> item <* spaces
  pure (path, name, v)

/-- an inline table of the values that a reader takes -/
def inlineOf (item : Reader Toml) : Reader Toml := do
  let _ ← char '\x7b'
  let entries ← sepBy (entryOf item) (char ',')
  spaces
  let _ ← char '\x7d'
  match inlineTable? entries with
  | some t => pure t
  | none => failure

/-- a value in which others are nested less than `depth` levels deep -/
def nested : Nat → Reader Toml
  | 0 => scalar
  | depth + 1 => scalar <|> arrayOf (nested depth) <|> inlineOf (nested depth)

def value : Reader Toml := nested (nestingLimit - 1)

def header : Reader Line :=
  (do
    chars ['[', '[']
    let (path, name) ← key
    chars [']', ']']
    pure (.elementHeader path name)) <|>
  (do
    let _ ← char '['
    let (path, name) ← key
    let _ ← char ']'
    pure (.header path name))

def entry : Reader Line := do
  let (path, name, v) ← entryOf value
  pure (.entry path name v)

/-- a line, with nothing for one that is empty or a comment -/
def line : Reader (Option Line) :=
  spaces *> ((some <$> (header <|> entry)) <|> pure none) <* lineEnd

/-- the lines of a document, which may start with a byte order mark -/
def document : Reader (List Line) := do
  let _ ← optional (char '\ufeff')
  let lines ← many line
  pure (lines.filterMap id)

end WordRole.Toml.Grammar

namespace WordRole.Toml

def parse? (s : String) : Option Entries := (Grammar.document.ofText? s).bind ofLines?

end WordRole.Toml
