import WordRole.Text.Reader

/-!
# The smallest parts of TOML

Space, comments, strings and keys.
-/

namespace WordRole.Toml.Grammar

open Text (Reader)
open Text.Reader

/-! ## Space -/

def isSpace (c : Char) : Bool := c = ' ' || c = '\t'

/-- a character that comments and strings may hold -/
def isPrintable (c : Char) : Bool := c = '\t' || (0x20 ≤ c.toNat && c.toNat ≠ 0x7F)

def spaces : Reader Unit := discard (run isSpace)

/-- the end of a line that another one follows -/
def newline : Reader Unit := discard (char '\n') <|> chars ['\r', '\n']

def comment : Reader Unit := discard (char '#' *> run isPrintable)

/-- what may follow on a line -/
def lineEnd : Reader Unit := spaces *> discard (optional comment) *> (newline <|> atEnd)

/-- blanks, comments and newlines -/
def gap : Reader Unit :=
  discard (many (discard (run1 isSpace) <|> (discard (optional comment) *> newline)))

/-! ## Strings -/

def hexDigit : Reader Nat := fun s =>
  match s with
  | c :: cs =>
    if c.isDigit then some (c.toNat - '0'.toNat, cs)
    else if 'a' ≤ c && c ≤ 'f' then some (c.toNat - 'a'.toNat + 10, cs)
    else if 'A' ≤ c && c ≤ 'F' then some (c.toNat - 'A'.toNat + 10, cs)
    else none
  | [] => none

/-- the number of `n` hexadecimal digits, after digits of the value `v` -/
def hexNumber (v : Nat) : Nat → Reader Nat
  | 0 => pure v
  | n + 1 => do hexNumber (16 * v + (← hexDigit)) n

def charOf (n : Nat) : Reader Char := if n.isValidChar then pure (Char.ofNat n) else failure

def escape : Reader Char := do
  let _ ← char '\\'
  match ← satisfy fun _ => true with
  | 'b' => pure '\x08'
  | 't' => pure '\t'
  | 'n' => pure '\n'
  | 'f' => pure '\x0c'
  | 'r' => pure '\r'
  | '"' => pure '"'
  | '\\' => pure '\\'
  | 'u' => charOf (← hexNumber 0 4)
  | 'U' => charOf (← hexNumber 0 8)
  | _ => failure

/-- characters of a string that stand for themselves -/
def plain (quote : Char) : Reader (List Char) :=
  run1 fun c => isPrintable c && c != quote && !(quote = '"' && c = '\\')

/-- a string on one line; only double quotes allow escapes -/
def lineString (quote : Char) : Reader (List Char) := do
  let _ ← char quote
  let parts ← many (plain quote <|> if quote = '"' then List.singleton <$> escape else failure)
  let _ ← char quote
  pure parts.flatten

/-- the newline and the space that a backslash at the end of a line takes with it -/
def continuation : Reader (List Char) := do
  let _ ← char '\\'
  spaces
  newline
  let _ ← many (newline <|> discard (run1 isSpace))
  pure []

/-- quotes inside a string over several lines, of which less than three may follow each other -/
def innerQuotes (quote : Char) : Reader (List Char) := do
  let quotes ← run1 (· == quote)
  if quotes.length < 3 then pure quotes else failure

/-- the quotes that end a string over several lines, of which up to two are its own -/
def finalQuotes (quote : Char) : Reader (List Char) := do
  let quotes ← run1 (· == quote)
  if quotes.length < 3 || 5 < quotes.length then failure else pure (quotes.drop 3)

/-- a string over several lines; a newline right after the quotes does not count -/
def blockString (quote : Char) : Reader (List Char) := do
  chars [quote, quote, quote]
  let _ ← optional newline
  let parts ← many <|
    plain quote <|> (newline *> pure ['\n']) <|> innerQuotes quote <|>
      if quote = '"' then continuation <|> (List.singleton <$> escape) else failure
  let own ← finalQuotes quote
  pure (parts.flatten ++ own)

/-- a string in quotes of one kind -/
def quoted (quote : Char) : Reader String :=
  String.ofList <$> (blockString quote <|> lineString quote)

def string : Reader String := quoted '"' <|> quoted '\''

/-! ## Keys -/

/-- a character of a key without quotes -/
def isBareKeyChar (c : Char) : Bool := c.isAlphanum || c = '_' || c = '-'

def keyPart : Reader String :=
  String.ofList <$> (run1 isBareKeyChar <|> lineString '"' <|> lineString '\'')

/-- how deep arrays and tables may nest, and how many parts a key may have, less one -/
def nestingLimit : Nat := 80

/-- a key, as the path to its last part and that part -/
def key : Reader (List String × String) := do
  let parts ← sepBy1 (spaces *> keyPart <* spaces) (char '.')
  match parts.getLast? with
  | some name => if parts.length < nestingLimit then pure (parts.dropLast, name) else failure
  | none => failure

end WordRole.Toml.Grammar
