/-!
# Runs of characters

The maximal runs of characters of a class in a text, in order.
-/

namespace WordRole.Text

/-- the maximal runs of the characters that pass a test -/
def runs (p : Char → Bool) : List Char → List (List Char)
  | [] => []
  | c :: cs =>
    if p c then
      match cs.head?.any p, runs p cs with
      | true, r :: rs => (c :: r) :: rs
      | _, rs => [c] :: rs
    else runs p cs

theorem all_of_mem_runs {p : Char → Bool} {cs r : List Char} (h : r ∈ runs p cs) :
    ∀ c ∈ r, p c = true := by
  induction cs generalizing r with
  | nil => simp [runs] at h
  | cons c cs ih =>
    simp only [runs] at h
    split at h
    · rename_i hc
      split at h
      · rename_i r' rs _ hr
        rw [hr] at ih
        rcases List.mem_cons.mp h with rfl | h
        · intro d hd
          rcases List.mem_cons.mp hd with rfl | hd
          · exact hc
          · exact ih List.mem_cons_self d hd
        · exact ih (List.mem_cons_of_mem _ h)
      · rcases List.mem_cons.mp h with rfl | h
        · simpa using hc
        · exact ih h
    · exact ih h

theorem ne_nil_of_mem_runs {p : Char → Bool} {cs r : List Char} (h : r ∈ runs p cs) :
    r ≠ [] := by
  induction cs generalizing r with
  | nil => simp [runs] at h
  | cons c cs ih =>
    simp only [runs] at h
    split at h
    · split at h
      · rename_i r' rs _ hr
        rw [hr] at ih
        rcases List.mem_cons.mp h with rfl | h
        · simp
        · exact ih (List.mem_cons_of_mem _ h)
      · rcases List.mem_cons.mp h with rfl | h
        · simp
        · exact ih h
    · exact ih h

end WordRole.Text
