import WordRole.Position

/-!
# A cursor in a buffer

A text can be read by index: a cursor holds an index and moves over one character at a time.  What
may reach beyond the buffer is partial here, and fails there: a slice (`slice?`) and a difference
(`minus?`).

* `Cursor.Before`: a cursor stands before the text that is left;
* `Cursor.skip_of_before`, `Cursor.offsetWhile_of_before`: loops over a class of characters;
* `Cursor.Before.slice?_eq`: what a slice of the text that is left holds.
-/

namespace WordRole.Buffer

/-- the characters of a buffer from one index up to another; there are none unless the indices are
in order and in the buffer -/
def slice? (text : List Char) (i j : Nat) : Option (List Char) :=
  if i ≤ j ∧ j ≤ text.length then some ((text.take j).drop i) else none

/-- a difference, unless it is below zero -/
def minus? (m n : Nat) : Option Nat := if n ≤ m then some (m - n) else none

theorem minus?_of_le {m n : Nat} (h : n ≤ m) : minus? m n = some (m - n) := if_pos h

structure Cursor where
  index : Nat
  position : Position
deriving DecidableEq, Repr

namespace Cursor

def start : Cursor := ⟨0, .start⟩

section Moves

variable (text : List Char)

/-- the character at a distance from the cursor, if the buffer reaches that far -/
def peek (c : Cursor) (offset : Nat) : Option Char := text[c.index + offset]?

/-- Moves over the next character, if there is one. -/
def bump (c : Cursor) : Cursor :=
  match c.peek text 0 with
  | some ch => ⟨c.index + 1, c.position.after ch⟩
  | none => c

def bumps : Nat → Cursor → Cursor
  | 0, c => c
  | n + 1, c => bumps n (c.bump text)

theorem lt_length_of_peek {c : Cursor} {offset : Nat} (h : (c.peek text offset).isSome = true) :
    c.index + offset < text.length := by
  obtain ⟨ch, hch⟩ := Option.isSome_iff_exists.mp h
  exact (List.getElem?_eq_some_iff.mp hch).1

theorem index_le_bump (c : Cursor) : c.index ≤ (c.bump text).index := by
  unfold bump
  split
  · exact Nat.le_succ _
  · exact Nat.le_refl _

theorem index_bump {c : Cursor} (h : (c.peek text 0).isSome = true) :
    (c.bump text).index = c.index + 1 := by
  obtain ⟨ch, hch⟩ := Option.isSome_iff_exists.mp h
  rw [bump, hch]

/-- A character is passed, so that less of the buffer is left. -/
theorem left_bump_lt {c : Cursor} (h : (c.peek text 0).isSome = true) :
    text.length - (c.bump text).index < text.length - c.index := by
  have hlt := lt_length_of_peek text h
  rw [index_bump text h]
  omega

/-- Moves over the characters that pass a test. -/
def skip (test : Char → Bool) (c : Cursor) : Cursor :=
  if (c.peek text 0).any test then (c.bump text).skip test else c
termination_by text.length - c.index
decreasing_by
  rename_i h
  exact left_bump_lt text (by cases hp : c.peek text 0 <;> simp_all)

/-- The distance from the cursor at which the characters that pass a test end. -/
def offsetWhile (test : Char → Bool) (c : Cursor) (offset : Nat) : Nat :=
  if (c.peek text offset).any test then c.offsetWhile test (offset + 1) else offset
termination_by text.length - (c.index + offset)
decreasing_by
  rename_i h
  have hlt : c.index + offset < text.length :=
    lt_length_of_peek text (by cases hp : c.peek text offset <;> simp_all)
  omega

theorem index_le_skip (test : Char → Bool) (c : Cursor) : c.index ≤ (c.skip text test).index := by
  fun_induction skip text test c with
  | case1 c h ih => exact Nat.le_trans (c.index_le_bump text) ih
  | case2 c h => exact Nat.le_refl _

end Moves

/-! ### The text that is left -/

/-- the cursor after some characters that it moves over -/
def advance (c : Cursor) (cs : List Char) : Cursor :=
  ⟨c.index + cs.length, c.position.afterAll cs⟩

@[simp] theorem advance_nil (c : Cursor) : c.advance [] = c := rfl

@[simp] theorem advance_advance (c : Cursor) (s t : List Char) :
    (c.advance s).advance t = c.advance (s ++ t) := by
  simp [advance, Position.afterAll_append, Nat.add_assoc]

/-- A cursor stands in a buffer before the text that is left. -/
def Before (text : List Char) (c : Cursor) (s : List Char) : Prop :=
  ∃ front, text = front ++ s ∧ c.index = front.length

theorem before_start (text : List Char) : start.Before text text := ⟨[], rfl, rfl⟩

section Before

variable {text : List Char} {c : Cursor}

theorem Before.index_add_length {s : List Char} (h : c.Before text s) :
    c.index + s.length = text.length := by
  obtain ⟨front, rfl, hi⟩ := h
  simp [hi]

theorem Before.lt_length_iff {s : List Char} (h : c.Before text s) {offset : Nat} :
    c.index + offset < text.length ↔ offset < s.length := by
  obtain ⟨front, rfl, hi⟩ := h
  simp [hi]

theorem Before.drop {s : List Char} (h : c.Before text s) : text.drop c.index = s := by
  obtain ⟨front, rfl, hi⟩ := h
  simp [hi]

theorem Before.peek {s : List Char} (h : c.Before text s) (offset : Nat) :
    c.peek text offset = s[offset]? := by
  obtain ⟨front, rfl, hi⟩ := h
  rw [Cursor.peek, hi, List.getElem?_append_right (Nat.le_add_right _ _), Nat.add_sub_cancel_left]

theorem Before.isSome_peek {s : List Char} (h : c.Before text s) (hs : s ≠ []) :
    (c.peek text 0).isSome = true := by
  obtain ⟨ch, s, rfl⟩ := List.exists_cons_of_ne_nil hs
  rw [h.peek]
  rfl

theorem Before.advance {s t : List Char} (h : c.Before text (s ++ t)) :
    (c.advance s).Before text t := by
  obtain ⟨front, rfl, hi⟩ := h
  exact ⟨front ++ s, (List.append_assoc ..).symm, by simp [Cursor.advance, hi]⟩

theorem Before.bump {ch : Char} {s : List Char} (h : c.Before text (ch :: s)) :
    c.bump text = c.advance [ch] := by
  rw [Cursor.bump, h.peek]
  rfl

theorem Before.bump_nil (h : c.Before text []) : c.bump text = c := by
  rw [Cursor.bump, h.peek]
  rfl

theorem Before.tail {ch : Char} {s : List Char} (h : c.Before text (ch :: s)) :
    (c.advance [ch]).Before text s := Before.advance (s := [ch]) h

theorem Before.bumps {s t : List Char} (h : c.Before text (s ++ t)) :
    c.bumps text s.length = c.advance s := by
  induction s generalizing c with
  | nil => rfl
  | cons ch s ih =>
    rw [List.length_cons, Cursor.bumps, h.bump, ih h.tail, advance_advance]
    rfl

/-- A slice of the text that is left. -/
theorem Before.slice?_eq {a s t : List Char} (h : c.Before text (a ++ s ++ t)) :
    slice? text (c.index + a.length) (c.index + (a.length + s.length)) = some s := by
  obtain ⟨front, rfl, hi⟩ := h
  unfold slice?
  rw [if_pos (by simp [hi])]
  have htake : (front ++ (a ++ s ++ t)).take (c.index + (a.length + s.length)) =
      (front ++ a) ++ s := by
    have hlength : c.index + (a.length + s.length) = (front ++ a ++ s).length := by
      simp [hi]
    rw [hlength, show front ++ (a ++ s ++ t) = (front ++ a ++ s) ++ t by simp,
      List.take_left' rfl]
  rw [htake, List.drop_left' (by simp [hi])]

/-- The text that a cursor has moved over. -/
theorem Before.slice?_advance {s t : List Char} (h : c.Before text (s ++ t)) :
    slice? text c.index (c.advance s).index = some s := by
  have hslice := Before.slice?_eq (a := []) h
  rwa [List.length_nil, Nat.zero_add] at hslice

end Before

/-! ### Loops -/

section Loops

variable {text : List Char} {c : Cursor}

theorem skip_of_before {s : List Char} (h : c.Before text s) (test : Char → Bool) :
    c.skip text test = c.advance (s.takeWhile test) := by
  induction s generalizing c with
  | nil => rw [skip, h.peek, if_neg (by simp), List.takeWhile_nil, advance_nil]
  | cons ch s ih =>
    rw [skip, h.peek]
    by_cases hch : test ch = true
    · rw [if_pos (by simpa using hch), h.bump, ih h.tail, advance_advance,
        List.takeWhile_cons_of_pos hch]
      rfl
    · rw [if_neg (by simpa using hch), List.takeWhile_cons_of_neg hch, advance_nil]

theorem Before.skip {s : List Char} (h : c.Before text s) (test : Char → Bool) :
    (c.advance (s.takeWhile test)).Before text (s.dropWhile test) := by
  rw [← List.takeWhile_append_dropWhile (p := test) (l := s)] at h
  exact h.advance

theorem offsetWhile_of_before {a s : List Char} (h : c.Before text (a ++ s))
    (test : Char → Bool) :
    c.offsetWhile text test a.length = a.length + (s.takeWhile test).length := by
  induction s generalizing a with
  | nil =>
    rw [offsetWhile, h.peek, if_neg (by simp)]
    rfl
  | cons ch s ih =>
    rw [offsetWhile, h.peek, List.getElem?_append_right (Nat.le_refl _), Nat.sub_self]
    by_cases hch : test ch = true
    · rw [if_pos (by simpa using hch), List.takeWhile_cons_of_pos hch, List.length_cons]
      rw [List.append_cons] at h
      have := ih h
      rw [List.length_append, List.length_singleton] at this
      omega
    · rw [if_neg (by simpa using hch), List.takeWhile_cons_of_neg hch]
      rfl

/-- What a loop passes from a distance on, and what it stops at. -/
theorem Before.offsetWhile {a s : List Char} (h : c.Before text (a ++ s)) (test : Char → Bool) :
    slice? text (c.index + a.length) (c.index + c.offsetWhile text test a.length) =
        some (s.takeWhile test) ∧
      c.peek text (c.offsetWhile text test a.length) = (s.dropWhile test)[0]? := by
  have hstop := offsetWhile_of_before h test
  rw [← List.takeWhile_append_dropWhile (p := test) (l := s), ← List.append_assoc] at h
  rw [hstop, h.slice?_eq, h.peek, ← List.length_append,
    List.getElem?_append_right (Nat.le_refl _), Nat.sub_self]
  exact ⟨rfl, rfl⟩

end Loops

end Cursor

end WordRole.Buffer
