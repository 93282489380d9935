import WordRole.Json.Basic
import WordRole.Text.Cut

/-!
# The lexemes of JSON

The marks, words, numbers and strings that a JSON text consists of, with white space between them.
`Lexeme.text` writes one and `Lexeme.first?` reads one, which takes at least one character
(`Lexeme.length_first?_lt`).
-/

namespace WordRole.Json

open Text (Cut)

inductive Lexeme where
  | beginArray
  | endArray
  | beginObject
  | endObject
  | nameSeparator
  | valueSeparator
  | null
  | bool (b : Bool)
  | number (literal : List Char)
  | string (text : Option String)
deriving DecidableEq, Repr, Inhabited

namespace Lexeme

/-! ## Writing -/

/-- a character inside a string; only quotes, backslashes and control characters are escaped -/
def escape (c : Char) : List Char :=
  if c = '"' then ['\\', '"']
  else if c = '\\' then ['\\', '\\']
  else if c = '\x08' then ['\\', 'b']
  else if c = '\x0c' then ['\\', 'f']
  else if c = '\n' then ['\\', 'n']
  else if c = '\r' then ['\\', 'r']
  else if c = '\t' then ['\\', 't']
  else if c.toNat < 0x20 then
    ['\\', 'u', '0', '0', Nat.digitChar (c.toNat / 16), Nat.digitChar (c.toNat % 16)]
  else [c]

/-- a string in quotes; one that no text holds is half a surrogate pair -/
def quoted : Option String → List Char
  | some s => '"' :: s.toList.flatMap escape ++ ['"']
  | none => ['"', '\\', 'u', 'd', '8', '0', '0', '"']

def text : Lexeme → List Char
  | beginArray => ['[']
  | endArray => [']']
  | beginObject => ['{']
  | endObject => ['}']
  | nameSeparator => [':']
  | valueSeparator => [',']
  | null => ['n', 'u', 'l', 'l']
  | bool true => ['t', 'r', 'u', 'e']
  | bool false => ['f', 'a', 'l', 's', 'e']
  | number literal => literal
  | string s => quoted s

/-! ## Reading strings -/

/-- A part of a string: a character, or a number that an escape gives. -/
inductive StringPart where
  | char (c : Char)
  | unit (n : Nat)
deriving DecidableEq, Repr, Inhabited

def hexValue? (c : Char) : Option Nat :=
  if c.isDigit then some (c.toNat - '0'.toNat)
  else if 'a' ≤ c && c ≤ 'f' then some (c.toNat - 'a'.toNat + 10)
  else if 'A' ≤ c && c ≤ 'F' then some (c.toNat - 'A'.toNat + 10)
  else none

/-- the value of four hexadecimal digits -/
def hexValue4? (a b c d : Char) : Option Nat := do
  let a ← hexValue? a
  let b ← hexValue? b
  let c ← hexValue? c
  let d ← hexValue? d
  pure (((a * 16 + b) * 16 + c) * 16 + d)

/-- the character that an escape of one letter stands for -/
def unescape? : Char → Option Char
  | '"' => some '"'
  | '\\' => some '\\'
  | '/' => some '/'
  | 'b' => some '\x08'
  | 'f' => some '\x0c'
  | 'n' => some '\n'
  | 'r' => some '\r'
  | 't' => some '\t'
  | _ => none

/-- the parts of a string up to its closing quote, and what follows -/
def stringParts? : List Char → Option (List StringPart × List Char)
  | [] => none
  | '"' :: rest => some ([], rest)
  | '\\' :: 'u' :: a :: b :: c :: d :: rest => do
    let n ← hexValue4? a b c d
    let (parts, rest) ← stringParts? rest
    pure (.unit n :: parts, rest)
  | '\\' :: e :: rest => do
    let c ← unescape? e
    let (parts, rest) ← stringParts? rest
    pure (.char c :: parts, rest)
  | c :: rest =>
    if c.toNat < 0x20 || c = '\\' then none
    else do
      let (parts, rest) ← stringParts? rest
      pure (.char c :: parts, rest)

/-- whether a number is the first half of a surrogate pair -/
def isHighSurrogate (n : Nat) : Bool := 0xD800 ≤ n && n < 0xDC00

/-- whether a number is the second half of a surrogate pair -/
def isLowSurrogate (n : Nat) : Bool := 0xDC00 ≤ n && n < 0xE000

def ofSurrogates (high low : Nat) : Char :=
  Char.ofNat (0x10000 + (high - 0xD800) * 0x400 + (low - 0xDC00))

/-- the characters of a string, unless half a surrogate pair is among its parts -/
def joined? : List StringPart → Option (List Char)
  | [] => some []
  | .char c :: parts => (joined? parts).map (c :: ·)
  | .unit n :: parts =>
    if isHighSurrogate n then
      match parts with
      | .unit m :: parts =>
        if isLowSurrogate m then (joined? parts).map (ofSurrogates n m :: ·) else none
      | _ => none
    else if isLowSurrogate n then none
    else (joined? parts).map (Char.ofNat n :: ·)

/-! ## Reading numbers -/

/-- Takes the digits before the point: a zero, or digits that do not start with one. -/
def integerPart : List Char → Cut
  | '0' :: cs => ⟨['0'], cs⟩
  | s => .span Char.isDigit s

/-- Takes a point and digits after it, if there are any. -/
def fractionPart : List Char → Cut
  | '.' :: c :: cs =>
    if c.isDigit then (Cut.span Char.isDigit (c :: cs)).cons '.' else .nothing ('.' :: c :: cs)
  | s => .nothing s

/-- Takes an exponent's sign and digits, if there are any digits. -/
def exponentDigits : List Char → Option Cut
  | s :: c :: cs =>
    if (s = '+' || s = '-') && c.isDigit then some ((Cut.span Char.isDigit (c :: cs)).cons s)
    else if s.isDigit then some (.span Char.isDigit (s :: c :: cs))
    else none
  | [c] => if c.isDigit then some ⟨[c], []⟩ else none
  | [] => none

/-- Takes an exponent, if there is one. -/
def exponentPart : List Char → Cut
  | e :: cs =>
    if e = 'e' || e = 'E' then
      match exponentDigits cs with
      | some cut => cut.cons e
      | none => .nothing (e :: cs)
    else .nothing (e :: cs)
  | [] => .nothing []

/-- Takes a number without a sign. -/
def unsigned (s : List Char) : Cut := ((integerPart s).andThen fractionPart).andThen exponentPart

/-- a number, and what follows -/
def number? : List Char → Option (List Char × List Char)
  | '-' :: c :: cs =>
    if c.isDigit then some ('-' :: (unsigned (c :: cs)).taken, (unsigned (c :: cs)).rest) else none
  | c :: cs =>
    if c.isDigit then some ((unsigned (c :: cs)).taken, (unsigned (c :: cs)).rest) else none
  | [] => none

/-! ## Reading a lexeme -/

def isSpace (c : Char) : Bool := c = ' ' || c = '\t' || c = '\n' || c = '\r'

/-- the lexeme that a text starts with, and what follows -/
def first? : List Char → Option (Lexeme × List Char)
  | '[' :: rest => some (beginArray, rest)
  | ']' :: rest => some (endArray, rest)
  | '{' :: rest => some (beginObject, rest)
  | '}' :: rest => some (endObject, rest)
  | ':' :: rest => some (nameSeparator, rest)
  | ',' :: rest => some (valueSeparator, rest)
  | 'n' :: 'u' :: 'l' :: 'l' :: rest => some (null, rest)
  | 't' :: 'r' :: 'u' :: 'e' :: rest => some (bool true, rest)
  | 'f' :: 'a' :: 'l' :: 's' :: 'e' :: rest => some (bool false, rest)
  | '"' :: rest =>
    (stringParts? rest).map fun r => (string ((joined? r.1).map String.ofList), r.2)
  | s => (number? s).map fun r => (number r.1, r.2)

theorem length_stringParts?_le {s rest : List Char} {parts : List StringPart}
    (h : stringParts? s = some (parts, rest)) : rest.length < s.length := by
  fun_induction stringParts? s generalizing parts rest with
  | case1 => simp at h
  | case2 r =>
    obtain ⟨-, rfl⟩ := Prod.mk.inj (Option.some.inj h)
    simp
  | case3 a b c d r ih =>
    simp only [Option.bind_eq_bind, Option.bind_eq_some_iff, Option.pure_def,
      Option.some.injEq] at h
    obtain ⟨n, -, ⟨ps, r'⟩, hr, he⟩ := h
    obtain ⟨-, rfl⟩ := Prod.mk.inj he
    have := ih hr
    simp only [List.length_cons]
    omega
  | case4 e r _ ih =>
    simp only [Option.bind_eq_bind, Option.bind_eq_some_iff, Option.pure_def,
      Option.some.injEq] at h
    obtain ⟨n, -, ⟨ps, r'⟩, hr, he⟩ := h
    obtain ⟨-, rfl⟩ := Prod.mk.inj he
    have := ih hr
    simp only [List.length_cons]
    omega
  | case5 => simp at h
  | case6 c r _ _ _ _ ih =>
    simp only [Option.bind_eq_bind, Option.bind_eq_some_iff, Option.pure_def,
      Option.some.injEq] at h
    obtain ⟨⟨ps, r'⟩, hr, he⟩ := h
    obtain ⟨-, rfl⟩ := Prod.mk.inj he
    have := ih hr
    simp only [List.length_cons]
    omega

@[simp] theorem whole_integerPart (s : List Char) : (integerPart s).whole = s := by
  unfold integerPart
  split <;> simp

@[simp] theorem whole_fractionPart (s : List Char) : (fractionPart s).whole = s := by
  unfold fractionPart
  split
  · split <;> simp
  · rfl

theorem whole_exponentDigits {s : List Char} {cut : Cut} (h : exponentDigits s = some cut) :
    cut.whole = s := by
  unfold exponentDigits at h
  split at h
  · split at h
    · obtain rfl := Option.some.inj h
      simp
    · split at h
      · obtain rfl := Option.some.inj h
        simp
      · simp at h
  · split at h
    · obtain rfl := Option.some.inj h
      rfl
    · simp at h
  · simp at h

@[simp] theorem whole_exponentPart (s : List Char) : (exponentPart s).whole = s := by
  unfold exponentPart
  split
  · split
    · split
      · rename_i h
        simp [whole_exponentDigits h]
      · rfl
    · rfl
  · rfl

@[simp] theorem whole_unsigned (s : List Char) : (unsigned s).whole = s := by
  rw [unsigned, Cut.whole_andThen _ whole_exponentPart, Cut.whole_andThen _ whole_fractionPart,
    whole_integerPart]

theorem taken_unsigned_ne_nil {c : Char} (cs : List Char) (h : c.isDigit = true) :
    (unsigned (c :: cs)).taken ≠ [] := by
  have hi : (integerPart (c :: cs)).taken ≠ [] := by
    unfold integerPart
    split
    · simp
    · exact Cut.taken_span_ne_nil cs h
  simp [unsigned, hi]

theorem length_number?_lt {s t rest : List Char} (h : number? s = some (t, rest)) :
    rest.length < s.length := by
  have key : ∀ {c : Char} (cs : List Char), c.isDigit = true →
      (unsigned (c :: cs)).rest.length < (c :: cs).length := by
    intro c cs hc
    have := Cut.length_rest_lt (taken_unsigned_ne_nil cs hc)
    rwa [whole_unsigned] at this
  unfold number? at h
  split at h
  · split at h
    · rename_i hc
      obtain ⟨-, rfl⟩ := Prod.mk.inj (Option.some.inj h)
      exact Nat.lt_succ_of_lt (key _ hc)
    · simp at h
  · split at h
    · rename_i hc
      obtain ⟨-, rfl⟩ := Prod.mk.inj (Option.some.inj h)
      exact key _ hc
    · simp at h
  · simp at h

theorem length_first?_lt {s rest : List Char} {l : Lexeme} (h : first? s = some (l, rest)) :
    rest.length < s.length := by
  unfold first? at h
  split at h
  case h_10 r =>
    obtain ⟨⟨parts, r'⟩, hp, he⟩ := Option.map_eq_some_iff.mp h
    obtain ⟨-, rfl⟩ := Prod.mk.inj he
    exact Nat.lt_succ_of_lt (length_stringParts?_le hp)
  case h_11 =>
    obtain ⟨⟨t, r'⟩, hp, he⟩ := Option.map_eq_some_iff.mp h
    obtain ⟨-, rfl⟩ := Prod.mk.inj he
    exact length_number?_lt hp
  all_goals
    obtain ⟨-, rfl⟩ := Prod.mk.inj (Option.some.inj h)
    simp only [List.length_cons]
    omega

end Lexeme

end WordRole.Json
