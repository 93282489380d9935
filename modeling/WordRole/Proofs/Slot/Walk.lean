import WordRole.Slot.Inference

/-!
# The walk at a place

The slot of a token is the one that the walk after the tokens before it gives (`getElem?_slots`).
What is promised to a token was promised by the token before it or by the one before that:

* `next_promise_after`, `afterNext_promise_after`: a promise one token later;
* `promise_after_two`: the promise that stands after two tokens.
-/

namespace WordRole

namespace Promise

@[simp] theorem or_none (p : Promise) : p.or none = p := by
  obtain ⟨a, b⟩ := p
  cases a <;> cases b <;> rfl

theorem skipping_cons (skip : Token → Bool) (find : List Token → Option Slot) (t : Token)
    (ts : List Token) : skipping skip find (t :: ts) =
      if skip t then ⟨.none, find ts⟩ else ⟨find (t :: ts), .none⟩ := rfl

end Promise

namespace SlotWalk

/-! ### The walk after a list of tokens -/

def afterAll (w : SlotWalk) (rest : List Token) : List Token → SlotWalk
  | [] => w
  | t :: ts => (w.after t (ts ++ rest)).afterAll rest ts

theorem afterAll_append (w : SlotWalk) (rest xs ys : List Token) :
    w.afterAll rest (xs ++ ys) = (w.afterAll (ys ++ rest) xs).afterAll rest ys := by
  induction xs generalizing w with
  | nil => rfl
  | cons x xs ih => simp only [List.cons_append, afterAll, ih, List.append_assoc]

theorem afterAll_concat (w : SlotWalk) (rest xs : List Token) (t : Token) :
    w.afterAll rest (xs ++ [t]) = (w.afterAll (t :: rest) xs).after t rest := by
  rw [afterAll_append]
  rfl

theorem getElem?_slots (w : SlotWalk) (before : List Token) (t : Token) (rest : List Token) :
    (w.slots (before ++ t :: rest))[before.length]? =
      some ((w.afterAll (t :: rest) before).slot t rest) := by
  induction before generalizing w with
  | nil => simp [slots, afterAll]
  | cons b before ih =>
    rw [List.cons_append, slots, List.length_cons, List.getElem?_cons_succ, ih]
    rfl

/-! ### Promises -/

/-- what a token promises to the two after it -/
def promised (w : SlotWalk) (t : Token) (rest : List Token) : Promise :=
  if t.isDelimiter "\x7b" then
    if Brace.opened w.before w.closed = .subscript then subscriptPromise rest else .none
  else if t.isWord "sort" then sortPromise rest
  else .none

theorem promise_after (w : SlotWalk) (t : Token) (rest : List Token) :
    (w.after t rest).promise = w.promise.later.or (w.promised t rest) := by
  unfold after promised
  dsimp only
  by_cases hopen : t.isDelimiter "\x7b" = true
  · rw [if_pos hopen, if_pos hopen]
    split <;> simp
  · rw [if_neg hopen, if_neg hopen]
    by_cases hclose : t.isDelimiter "\x7d" = true
    · -- a closing brace is no word
      have hsort : ¬t.isWord "sort" = true := by
        intro h
        simp only [Token.isWord, Token.isDelimiter, Bool.and_eq_true, decide_eq_true_eq] at h hclose
        rw [h.1] at hclose
        cases hclose.1
      rw [if_pos hclose, if_neg hsort, Promise.or_none]
    · rw [if_neg hclose]
      dsimp only
      split <;> simp

theorem next_promise_after (w : SlotWalk) (t : Token) (rest : List Token) :
    (w.after t rest).promise.next = w.promise.afterNext.or (w.promised t rest).next := by
  rw [promise_after]
  rfl

theorem afterNext_promise_after (w : SlotWalk) (t : Token) (rest : List Token) :
    (w.after t rest).promise.afterNext = (w.promised t rest).afterNext := by
  rw [promise_after]
  rfl

/-- What is promised to a token is promised by the second one before it, or else by the first. -/
theorem promise_after_two (w : SlotWalk) (v u : Token) (rest : List Token) :
    ((w.after v (u :: rest)).after u rest).promise.next =
      (w.promised v (u :: rest)).afterNext.or ((w.after v (u :: rest)).promised u rest).next := by
  rw [next_promise_after, afterNext_promise_after]

end SlotWalk

end WordRole
