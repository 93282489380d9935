/-!
# Reading with one element of lookahead

A list that is read from the front.  The next element may be looked at before it is taken, so at
most one element more than those taken has been drawn from the source:

* `Lookahead.toList_next?`: taking an element removes it from the front of what is left;
* `Lookahead.toList_peek`: looking at the next element leaves what is left as it was.
-/

namespace WordRole

/-- A list read from the front. -/
structure Lookahead (α : Type) where
  /-- the element that has been looked at and not taken -/
  ahead : Option α
  /-- the elements that have not been drawn yet -/
  source : List α
deriving DecidableEq, Repr, Inhabited

namespace Lookahead

variable {α : Type}

def ofList (xs : List α) : Lookahead α := ⟨none, xs⟩

/-- the elements that have not been taken yet -/
def toList (l : Lookahead α) : List α := l.ahead.toList ++ l.source

def size (l : Lookahead α) : Nat := l.toList.length

def next? (l : Lookahead α) : Option (α × Lookahead α) :=
  match l.ahead, l.source with
  | some x, xs => some (x, ⟨none, xs⟩)
  | none, x :: xs => some (x, ⟨none, xs⟩)
  | none, [] => none

/-- the next element looked at, if there is one -/
def peek (l : Lookahead α) : Option α × Lookahead α :=
  match l.ahead, l.source with
  | some x, _ => (some x, l)
  | none, x :: xs => (some x, ⟨some x, xs⟩)
  | none, [] => (none, l)

/-- a list of which no more than the first element has been looked at -/
def looked (xs : List α) : Lookahead α := ⟨xs.head?, xs.tail⟩

/-! ### What is left -/

@[simp] theorem toList_ofList (xs : List α) : (ofList xs).toList = xs := rfl

theorem toList_next? {l m : Lookahead α} {x : α} (h : l.next? = some (x, m)) :
    l.toList = x :: m.toList := by
  obtain ⟨ahead, source⟩ := l
  cases ahead <;> cases source <;> simp_all [next?, toList]
  · obtain ⟨rfl, rfl⟩ := h; simp
  · obtain ⟨rfl, rfl⟩ := h; simp
  · obtain ⟨rfl, rfl⟩ := h; simp

theorem next?_eq_none_iff {l : Lookahead α} : l.next? = none ↔ l.toList = [] := by
  obtain ⟨ahead, source⟩ := l
  cases ahead <;> cases source <;> simp [next?, toList]

@[simp] theorem toList_peek (l : Lookahead α) : l.peek.2.toList = l.toList := by
  obtain ⟨ahead, source⟩ := l
  cases ahead <;> cases source <;> simp [peek, toList]

theorem peek_fst (l : Lookahead α) : l.peek.1 = l.toList.head? := by
  obtain ⟨ahead, source⟩ := l
  cases ahead <;> cases source <;> simp [peek, toList]

@[simp] theorem toList_looked (xs : List α) : (looked xs).toList = xs := by
  cases xs <;> rfl

theorem ahead_next? {l m : Lookahead α} {x : α} (h : l.next? = some (x, m)) : m.ahead = none := by
  obtain ⟨ahead, source⟩ := l
  cases ahead <;> cases source <;> simp_all [next?]
  all_goals rw [← h.2]

theorem peek_eq_looked {l : Lookahead α} (h : l.ahead = none) : l.peek.2 = looked l.toList := by
  obtain ⟨ahead, source⟩ := l
  subst h
  cases source <;> rfl

@[simp] theorem size_peek (l : Lookahead α) : l.peek.2.size = l.size := by simp [size]

theorem size_next? {l m : Lookahead α} {x : α} (h : l.next? = some (x, m)) :
    m.size < l.size := by
  simp [size, toList_next? h]

end Lookahead

end WordRole
