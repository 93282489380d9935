import WordRole.Text.Cut

/-!
# Lines

A text as the list of its lines, each with the newline that ends it; the last line may have none.

* `flatten_lines`: the lines make up the text;
* `Cut.whole_through`: taking lines through the first that passes a test loses nothing.
-/

namespace WordRole.Text

/-- the lines of a text, each with its newline -/
def lines : List Char → List (List Char)
  | [] => []
  | c :: cs =>
    if c = '\n' then [c] :: lines cs
    else match lines cs with
      | [] => [[c]]
      | l :: ls => (c :: l) :: ls

/-- a line without its newline -/
def content (line : List Char) : List Char := line.takeWhile (· != '\n')

/-- Takes lines through the first that passes a test, or all if none does. -/
def Cut.through (p : List Char → Bool) (s : List Char) : Cut :=
  let before := (lines s).takeWhile fun l => !p l
  match (lines s).dropWhile fun l => !p l with
  | [] => ⟨before.flatten, []⟩
  | l :: ls => ⟨before.flatten ++ l, ls.flatten⟩

@[simp] theorem flatten_lines (s : List Char) : (lines s).flatten = s := by
  induction s with
  | nil => rfl
  | cons c cs ih =>
    simp only [lines]
    split
    · simp [ih]
    · split
      · rename_i h
        rw [h] at ih
        simpa using ih
      · rename_i l ls h
        rw [h] at ih
        simpa using ih

theorem ne_nil_of_mem_lines {s l : List Char} (h : l ∈ lines s) : l ≠ [] := by
  induction s generalizing l with
  | nil => simp [lines] at h
  | cons c cs ih =>
    simp only [lines] at h
    split at h
    · rcases List.mem_cons.mp h with rfl | h
      · simp
      · exact ih h
    · split at h
      · simp_all
      · rename_i l' ls hl
        rcases List.mem_cons.mp h with rfl | h
        · simp
        · exact ih (by simp [hl, h])

theorem lines_cons_ne_nil (c : Char) (cs : List Char) : lines (c :: cs) ≠ [] := by
  simp only [lines]
  split
  · simp
  · split <;> simp

namespace Cut

@[simp] theorem whole_through (p : List Char → Bool) (s : List Char) : (through p s).whole = s := by
  have h := congrArg List.flatten
    (List.takeWhile_append_dropWhile (p := fun l => !p l) (l := lines s))
  rw [List.flatten_append, flatten_lines] at h
  unfold through
  split
  · rename_i hd
    simpa [hd, whole] using h
  · rename_i l ls hd
    simpa [hd, whole] using h

theorem taken_through_ne_nil (p : List Char → Bool) (c : Char) (cs : List Char) :
    (through p (c :: cs)).taken ≠ [] := by
  have hw := whole_through p (c :: cs)
  unfold through at hw ⊢
  split at hw
  · simp_all [whole]
  · rename_i l ls hd
    have hm : l ∈ (lines (c :: cs)).dropWhile fun l => !p l := by simp [hd]
    have hl := ne_nil_of_mem_lines ((List.dropWhile_sublist _).mem hm)
    simp [hl]

end Cut

end WordRole.Text
