import WordRole.Toml.Basic
import WordRole.Toml.Lexical

/-!
# Numbers and times of TOML

Only their form is checked, and that they exist: an integer fits in 64 bits, a decimal does not
round to infinity, and a day is in the calendar.
-/

namespace WordRole.Toml.Grammar

open Text (Reader)
open Text.Reader

/-! ## Digits -/

/-- the value of a digit in any radix up to sixteen -/
def digitValue (c : Char) : Nat :=
  if c.isDigit then c.toNat - '0'.toNat
  else if 'a' ≤ c && c ≤ 'f' then c.toNat - 'a'.toNat + 10
  else if 'A' ≤ c && c ≤ 'F' then c.toNat - 'A'.toNat + 10
  else 16

def isDigitOf (radix : Nat) (c : Char) : Bool := digitValue c < radix

def numberOf (radix : Nat) (digits : List Char) : Nat :=
  digits.foldl (fun n c => radix * n + digitValue c) 0

/-- whether single underscores stand between digits only -/
def isWellSpaced : List Char → Bool
  | [] => true
  | ['_'] => false
  | '_' :: '_' :: _ => false
  | _ :: cs => isWellSpaced cs

/-- digits of a radix, with underscores between them -/
def digits (radix : Nat) : Reader (List Char) := do
  let cs ← run1 fun c => isDigitOf radix c || c = '_'
  if cs.head? = some '_' || !isWellSpaced cs then failure
  else pure (cs.filter (· != '_'))

/-! ## Numbers -/

def sign : Reader Bool := (char '-' *> pure true) <|> (char '+' *> pure false) <|> pure false

/-- the digits of a decimal integer, which start with a zero only if there is one digit -/
def decimalDigits : Reader (List Char) := (List.singleton <$> char '0') <|> digits 10

/-- what integers are less than; the least one is as far below zero -/
def integerBound : Nat := Nat.pow 2 63

/-- an integer with its radix in front -/
def radixInteger (mark : Char) (radix : Nat) : Reader Toml := do
  chars ['0', mark]
  if numberOf radix (← digits radix) < integerBound then pure .number else failure

def decimalInteger : Reader Toml := do
  let negative ← sign
  let n := numberOf 10 (← decimalDigits)
  if n < integerBound || (negative && n = integerBound) then pure .number else failure

/-- Whether `m · 10 ^ e` rounds to infinity: whether it is at least halfway from the greatest finite
number in binary64 to the next power of two. -/
def roundsToInfinity (m : Nat) (e : Int) : Bool :=
  let limit := Nat.pow 2 1024 - Nat.pow 2 970
  let size := (Nat.toDigits 10 m).length
  if m = 0 then false
  else if e + size > 310 then true
  else if e + size < 300 then false
  else if 0 ≤ e then limit ≤ m * Nat.pow 10 e.toNat
  else limit * Nat.pow 10 (-e).toNat ≤ m

def fraction : Reader (List Char) := char '.' *> digits 10

def exponent : Reader Int := do
  let _ ← char 'e' <|> char 'E'
  let negative ← sign
  let n := numberOf 10 (← digits 10)
  pure (if negative then -(n : Int) else n)

/-- a decimal with a fraction or an exponent or both -/
def decimal : Reader Toml := do
  let negative ← sign
  let whole ← decimalDigits
  let part ← optional fraction
  let e ← optional exponent
  if part.isNone && e.isNone then failure
  else
    let part := part.getD []
    if !negative && roundsToInfinity (numberOf 10 (whole ++ part)) (e.getD 0 - part.length) then
      failure
    else pure .number

/-- a number that is written as a word -/
def special : Reader Toml := do
  let _ ← sign
  chars ['i', 'n', 'f'] <|> chars ['n', 'a', 'n']
  pure .number

/-! ## Times -/

/-- the number of `n` decimal digits -/
def fixed (n : Nat) : Reader Nat := fun s =>
  let cs := s.take n
  if cs.length = n && cs.all Char.isDigit then some (numberOf 10 cs, s.drop n) else none

def twoDigits (low high : Nat) : Reader Nat := do
  let n ← fixed 2
  if low ≤ n && n ≤ high then pure n else failure

def daysInMonth (year month : Nat) : Nat :=
  if month = 2 then
    if year % 4 = 0 && (year % 100 ≠ 0 || year % 400 = 0) then 29 else 28
  else if [4, 6, 9, 11].contains month then 30
  else 31

def date : Reader Unit := do
  let year ← fixed 4
  let _ ← char '-'
  let month ← twoDigits 1 12
  let _ ← char '-'
  let _ ← twoDigits 1 (daysInMonth year month)

/-- a time of day, in which a second may be a leap second -/
def time : Reader Unit := do
  let _ ← twoDigits 0 23
  let _ ← char ':'
  let _ ← twoDigits 0 59
  let _ ← char ':'
  let _ ← twoDigits 0 60
  let _ ← optional (char '.' *> run1 Char.isDigit)

/-- the distance from universal time -/
def offset : Reader Unit :=
  discard (char 'Z' <|> char 'z') <|>
    do
      let _ ← char '+' <|> char '-'
      let _ ← twoDigits 0 23
      let _ ← char ':'
      let _ ← twoDigits 0 59

/-- a day, a time of day, or both, with or without a distance -/
def datetime : Reader Toml :=
  (date *> optional ((char 'T' <|> char 't' <|> char ' ') *> time *> optional offset) *>
      pure .datetime) <|>
    (time *> pure .datetime)

/-! ## Scalars -/

/-- a value that holds no other values -/
def scalar : Reader Toml :=
  (.string <$> string) <|> (chars ['t', 'r', 'u', 'e'] *> pure (.boolean true)) <|>
    (chars ['f', 'a', 'l', 's', 'e'] *> pure (.boolean false)) <|> datetime <|> decimal <|>
    special <|> radixInteger 'x' 16 <|> radixInteger 'o' 8 <|> radixInteger 'b' 2 <|>
    decimalInteger

end WordRole.Toml.Grammar
