/-!
# Readers

A reader takes a value from the front of a text, or fails and leaves the text as it was.  Readers
are combined as programs; `Reader.many` repeats one for as long as it takes something.
-/

namespace WordRole.Text

/-- A program that takes a value from the front of a text. -/
abbrev Reader := StateT (List Char) Option

namespace Reader

variable {α β : Type}

def satisfy (p : Char → Bool) : Reader Char := fun s =>
  match s with
  | c :: cs => if p c then some (c, cs) else none
  | [] => none

def char (c : Char) : Reader Char := satisfy (· == c)

def chars (cs : List Char) : Reader Unit := fun s =>
  if cs.isPrefixOf s then some ((), s.drop cs.length) else none

/-- the longest run of characters that pass a test -/
def run (p : Char → Bool) : Reader (List Char) := fun s => some (s.takeWhile p, s.dropWhile p)

/-- the longest run of characters that pass a test, which is not empty -/
def run1 (p : Char → Bool) : Reader (List Char) := do
  let cs ← run p
  if cs.isEmpty then failure else pure cs

def atEnd : Reader Unit := fun s => if s.isEmpty then some ((), s) else none

/-- the values that a reader takes one after the other, from a text -/
def manyFrom (p : Reader α) (s : List Char) : List α × List Char :=
  match p s with
  | none => ([], s)
  | some (x, rest) =>
    if _h : rest.length < s.length then
      let more := manyFrom p rest
      (x :: more.1, more.2)
    else ([], s)
termination_by s.length

/-- the values that a reader takes one after the other, as long as it takes something -/
def many (p : Reader α) : Reader (List α) := fun s => some (manyFrom p s)

/-- at least one value, with separators between them -/
def sepBy1 (p : Reader α) (separator : Reader β) : Reader (List α) := do
  let x ← p
  let xs ← many (separator *> p)
  pure (x :: xs)

def sepBy (p : Reader α) (separator : Reader β) : Reader (List α) :=
  sepBy1 p separator <|> pure []

/-- the value that a reader takes from all of a text -/
def ofText? (p : Reader α) (s : String) : Option α :=
  (StateT.run (p <* atEnd) s.toList).map (·.1)

end Reader

end WordRole.Text
