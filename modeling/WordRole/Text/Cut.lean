/-!
# Texts cut in two

A scanner takes the front of a text and leaves the rest.  `Cut.whole` puts both together again, and
every way of cutting here loses nothing:

* `Cut.whole_span`, `Cut.whole_first`: cutting at a class of characters, or at a number of them;
* `Cut.whole_andThen`: cutting what is left once more;
* `Cut.length_rest_lt`: a cut that takes something leaves less.
-/

namespace WordRole.Text

/-- The front of a text and what follows it. -/
structure Cut where
  taken : List Char
  rest : List Char
deriving DecidableEq, Repr, Inhabited

namespace Cut

def whole (cut : Cut) : List Char := cut.taken ++ cut.rest

def nothing (s : List Char) : Cut := ⟨[], s⟩

/-- the longest front of characters that pass a test -/
def span (p : Char → Bool) (s : List Char) : Cut := ⟨s.takeWhile p, s.dropWhile p⟩

def first (n : Nat) (s : List Char) : Cut := ⟨s.take n, s.drop n⟩

/-- a cut of the text with one more character in front -/
def cons (c : Char) (cut : Cut) : Cut := ⟨c :: cut.taken, cut.rest⟩

/-- a cut of the text with more characters in front -/
def after (cs : List Char) (cut : Cut) : Cut := ⟨cs ++ cut.taken, cut.rest⟩

/-- a cut, and what is left cut again -/
def andThen (cut : Cut) (f : List Char → Cut) : Cut := (f cut.rest).after cut.taken

/-! ### Nothing is lost -/

@[simp] theorem whole_mk (s t : List Char) : (mk s t).whole = s ++ t := rfl

@[simp] theorem whole_nothing (s : List Char) : (nothing s).whole = s := rfl

@[simp] theorem whole_span (p : Char → Bool) (s : List Char) : (span p s).whole = s :=
  List.takeWhile_append_dropWhile

@[simp] theorem whole_first (n : Nat) (s : List Char) : (first n s).whole = s :=
  List.take_append_drop n s

@[simp] theorem whole_cons (c : Char) (cut : Cut) : (cut.cons c).whole = c :: cut.whole := rfl

@[simp] theorem whole_after (cs : List Char) (cut : Cut) :
    (cut.after cs).whole = cs ++ cut.whole := by
  simp [whole, after]

theorem whole_andThen (cut : Cut) {f : List Char → Cut} (hf : ∀ s, (f s).whole = s) :
    (cut.andThen f).whole = cut.whole := by
  rw [andThen, whole_after, hf]
  rfl

theorem length_rest_lt {cut : Cut} (h : cut.taken ≠ []) : cut.rest.length < cut.whole.length := by
  have := List.length_pos_iff.mpr h
  simp [whole]
  omega

theorem length_rest_le (cut : Cut) : cut.rest.length ≤ cut.whole.length := by
  simp [whole]

/-! ### Something is taken -/

@[simp] theorem taken_cons (c : Char) (cut : Cut) : (cut.cons c).taken = c :: cut.taken := rfl

@[simp] theorem taken_after (cs : List Char) (cut : Cut) :
    (cut.after cs).taken = cs ++ cut.taken := rfl

@[simp] theorem taken_andThen (cut : Cut) (f : List Char → Cut) :
    (cut.andThen f).taken = cut.taken ++ (f cut.rest).taken := rfl

theorem taken_span_ne_nil {p : Char → Bool} {c : Char} (cs : List Char) (h : p c = true) :
    (span p (c :: cs)).taken ≠ [] := by
  simp [span, h]

end Cut

end WordRole.Text
