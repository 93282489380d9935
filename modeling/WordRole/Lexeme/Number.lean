import WordRole.Text.Cut

/-!
# Numbers

A number is decimal, with an optional fraction and exponent, or has a radix mark; underscores may
stand between digits.
-/

namespace WordRole.Lexeme

open Text (Cut)

def isHexDigit (c : Char) : Bool :=
  c.isDigit || ('a' ≤ c && c ≤ 'f') || ('A' ≤ c && c ≤ 'F')

def digits (s : List Char) : Cut := .span (fun c => c.isDigit || c = '_') s

/-- Takes a point and the digits after it, if there are any. -/
def fraction : List Char → Cut
  | '.' :: c :: cs => if c.isDigit then (digits (c :: cs)).cons '.' else .nothing ('.' :: c :: cs)
  | s => .nothing s

/-- Takes an exponent: its mark, a sign or a digit, and more digits. -/
def exponent : List Char → Cut
  | e :: c :: cs =>
    if (e = 'e' || e = 'E') && (c.isDigit || c = '-' || c = '+') then
      ((digits cs).cons c).cons e
    else .nothing (e :: c :: cs)
  | s => .nothing s

def decimal (s : List Char) : Cut := ((digits s).andThen fraction).andThen exponent

def number : List Char → Cut
  | '0' :: x :: cs =>
    if ['x', 'X', 'b', 'B'].contains x then
      ((Cut.span (fun c => isHexDigit c || c = '_') cs).cons x).cons '0'
    else decimal ('0' :: x :: cs)
  | s => decimal s

/-! ### Nothing is lost -/

@[simp] theorem whole_digits (s : List Char) : (digits s).whole = s := Cut.whole_span _ s

@[simp] theorem whole_fraction (s : List Char) : (fraction s).whole = s := by
  unfold fraction
  split
  · split <;> simp
  · rfl

@[simp] theorem whole_exponent (s : List Char) : (exponent s).whole = s := by
  unfold exponent
  split
  · split <;> simp
  · rfl

@[simp] theorem whole_decimal (s : List Char) : (decimal s).whole = s := by
  rw [decimal, Cut.whole_andThen _ whole_exponent, Cut.whole_andThen _ whole_fraction,
    whole_digits]

@[simp] theorem whole_number (s : List Char) : (number s).whole = s := by
  unfold number
  split
  · split <;> simp
  · simp

theorem taken_decimal_ne_nil {c : Char} (cs : List Char) (h : c.isDigit = true) :
    (decimal (c :: cs)).taken ≠ [] := by
  have hd : (digits (c :: cs)).taken ≠ [] := Cut.taken_span_ne_nil cs (by simp [h])
  simp [decimal, hd]

theorem taken_number_ne_nil {c : Char} (cs : List Char) (h : c.isDigit = true) :
    (number (c :: cs)).taken ≠ [] := by
  unfold number
  split
  · rename_i h'
    obtain ⟨rfl, rfl⟩ := List.cons.inj h'
    split
    · simp
    · exact taken_decimal_ne_nil _ h
  · exact taken_decimal_ne_nil cs h

end WordRole.Lexeme
