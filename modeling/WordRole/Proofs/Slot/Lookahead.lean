import WordRole.Proofs.Slot.Sight

/-!
# One token ahead

The slot of a token is told by the tokens before it, itself and the one after it, although a brace
and a `sort` promise slots to tokens that are not there yet (`Slot.infer_lookahead`).  Two walks
over lists that agree on some tokens differ in nothing but their promises, and there only in those
that are decided by a token out of sight (`Promise.Alike`).

* `SlotWalk.alike_promised`: what a token promises, before lists that agree on some tokens;
* `SlotWalk.take_slots`: two walks that are alike give the same slots up to the last token but one.
-/

namespace WordRole

/-! ### Lists that agree -/

section Agree

variable {α : Type} {xs ys : List α}

theorem head?_eq_of_take_eq {n : Nat} (h : xs.take (n + 1) = ys.take (n + 1)) :
    xs.head? = ys.head? := by
  have hhead := congrArg List.head? h
  rwa [List.head?_take, List.head?_take, if_neg (Nat.succ_ne_zero n),
    if_neg (Nat.succ_ne_zero n)] at hhead

theorem take_eq_cases {n : Nat} (h : xs.take (n + 1) = ys.take (n + 1)) :
    xs = [] ∧ ys = [] ∨ ∃ t us vs, xs = t :: us ∧ ys = t :: vs ∧ us.take n = vs.take n := by
  rcases xs with _ | ⟨t, us⟩ <;> rcases ys with _ | ⟨u, vs⟩
  · exact .inl ⟨rfl, rfl⟩
  · cases h
  · cases h
  · rw [List.take_succ_cons, List.take_succ_cons, List.cons.injEq] at h
    obtain ⟨rfl, htake⟩ := h
    exact .inr ⟨t, us, vs, rfl, rfl, htake⟩

end Agree

/-! ### Promises before lists that agree -/

namespace Promise

/-- Two promises before lists that agree on a number of tokens: a slot is promised to a token alike
if the token after it is among these. -/
structure Alike (n : Nat) (p q : Promise) : Prop where
  next : 2 ≤ n → p.next = q.next
  afterNext : 3 ≤ n → p.afterNext = q.afterNext

theorem Alike.refl (n : Nat) (p : Promise) : Alike n p p := ⟨fun _ => rfl, fun _ => rfl⟩

theorem Alike.later {n : Nat} {p q : Promise} (h : Alike (n + 1) p q) :
    Alike n p.later q.later where
  next hn := h.afterNext (by omega)
  afterNext _ := rfl

theorem Alike.or {n : Nat} {p q p' q' : Promise} (h : Alike n p q) (h' : Alike n p' q') :
    Alike n (p.or p') (q.or q') where
  next hn := by
    unfold Promise.or
    rw [h.next hn, h'.next hn]
  afterNext hn := by
    unfold Promise.or
    rw [h.afterNext hn, h'.afterNext hn]

/-- A slot that is found from a token and the one after it is promised alike. -/
theorem alike_skipping {skip : Token → Bool} {find : List Token → Option Slot}
    (hfind : ∀ t us vs, us.head? = vs.head? → find (t :: us) = find (t :: vs))
    {xs ys : List Token} {n : Nat} (h : xs.take n = ys.take n) :
    Alike n (skipping skip find xs) (skipping skip find ys) := by
  have hfound : ∀ {us vs : List Token} {m : Nat}, us.take (m + 2) = vs.take (m + 2) →
      find us = find vs := by
    intro us vs m huv
    obtain ⟨rfl, rfl⟩ | ⟨t, us', vs', rfl, rfl, htake⟩ := take_eq_cases huv
    · rfl
    · exact hfind t us' vs' (head?_eq_of_take_eq htake)
  rcases n with _ | n
  · exact ⟨fun hn => absurd hn (by omega), fun hn => absurd hn (by omega)⟩
  obtain ⟨rfl, rfl⟩ | ⟨t, us, vs, rfl, rfl, htake⟩ := take_eq_cases h
  · exact .refl (n + 1) _
  · rw [skipping_cons, skipping_cons]
    split
    · refine ⟨fun _ => rfl, fun hn => ?_⟩
      obtain ⟨m, rfl⟩ : ∃ m, n = m + 2 := ⟨n - 2, by omega⟩
      exact hfound htake
    · refine ⟨fun hn => ?_, fun _ => rfl⟩
      obtain ⟨m, rfl⟩ : ∃ m, n = m + 1 := ⟨n - 1, by omega⟩
      exact hfound h

end Promise

namespace SlotWalk

theorem alike_promised (w : SlotWalk) (t : Token) {xs ys : List Token} {n : Nat}
    (h : xs.take n = ys.take n) : (w.promised t xs).Alike n (w.promised t ys) := by
  unfold promised
  split
  · split
    · exact Promise.alike_skipping keySlot_congr h
    · exact .refl n .none
  · split
    · exact Promise.alike_skipping comparatorSlot_congr h
    · exact .refl n .none

/-! ### Walks that differ in their promises -/

def withPromise (w : SlotWalk) (p : Promise) : SlotWalk := { w with promise := p }

/-- A step with another promise before another list changes nothing but the promise. -/
theorem after_withPromise (w : SlotWalk) (p : Promise) (t : Token) (rest : List Token) :
    (w.withPromise p).after t rest =
      (w.after t []).withPromise (p.later.or (w.promised t rest)) := by
  have hpromise := promise_after (w.withPromise p) t rest
  have hrest : (w.withPromise p).after t rest =
      (w.after t []).withPromise ((w.withPromise p).after t rest).promise := by
    unfold after withPromise
    dsimp only
    split
    · rfl
    · split <;> rfl
  rw [hrest, hpromise]
  rfl

theorem slot_withPromise {p q : Promise} {xs ys : List Token} {n : Nat}
    (hpromise : p.Alike (n + 2) q) (h : xs.take (n + 1) = ys.take (n + 1)) (w : SlotWalk)
    (t : Token) : (w.withPromise p).slot t xs = (w.withPromise q).slot t ys := by
  have hnext : p.next = q.next := hpromise.next (by omega)
  unfold slot
  rw [head?_eq_of_take_eq h]
  exact congrArg (Option.or · _) hnext

theorem take_slots {p q : Promise} {xs ys : List Token} {n : Nat} (hpromise : p.Alike (n + 1) q)
    (h : xs.take (n + 1) = ys.take (n + 1)) (w : SlotWalk) :
    ((w.withPromise p).slots xs).take n = ((w.withPromise q).slots ys).take n := by
  induction n generalizing xs ys p q w with
  | zero => rfl
  | succ n ih =>
    obtain ⟨rfl, rfl⟩ | ⟨t, us, vs, rfl, rfl, htake⟩ := take_eq_cases h
    · rfl
    · rw [slots, slots, List.take_succ_cons, List.take_succ_cons,
        slot_withPromise hpromise htake, after_withPromise, after_withPromise]
      exact congrArg _ (ih (hpromise.later.or (alike_promised w t htake)) htake (w.after t []))

end SlotWalk

/-! ### Slots -/

namespace Slot

/-- **Looking ahead.**  Lists that agree on their first tokens have the same slots up to the last of
these but one.  So each token gets its slot from the tokens up to the one after it. -/
theorem infer_lookahead {xs ys : List Token} {n : Nat} (h : xs.take (n + 1) = ys.take (n + 1)) :
    (infer xs).take n = (infer ys).take n ∧
      ∀ j < n, (infer xs)[j]? = (infer (ys.take (j + 2)))[j]? := by
  have hagree : ∀ {us vs : List Token} {m : Nat}, us.take (m + 1) = vs.take (m + 1) →
      (infer us).take m = (infer vs).take m :=
    fun huv => SlotWalk.take_slots (.refl _ .none) huv .start
  refine ⟨hagree h, fun j hj => ?_⟩
  have hsight : xs.take (j + 1 + 1) = (ys.take (j + 2)).take (j + 1 + 1) := by
    have hshort := congrArg (List.take (j + 2)) h
    rw [List.take_take, List.take_take, Nat.min_eq_left (by omega)] at hshort
    rw [hshort, List.take_take, Nat.min_self]
  have hslot := congrArg (·[j]?) (hagree hsight)
  simpa using hslot

/-- `$h{f}` -/
def elementOfHash : List Token :=
  [⟨.identifier, "$h", ⟨1, 1⟩⟩, ⟨.delimiter, "\x7b", ⟨1, 3⟩⟩, ⟨.identifier, "f", ⟨1, 4⟩⟩,
    ⟨.delimiter, "\x7d", ⟨1, 5⟩⟩]

/-- `$h{f}->` -/
def memberOfElement : List Token := elementOfHash ++ [⟨.operator, "->", ⟨1, 6⟩⟩]

/-- The key of `$h{f}` has its slot whatever comes after the brace that closes it. -/
theorem infer_lookahead_elementOfHash :
    elementOfHash.take 4 = memberOfElement.take 4 ∧
    (infer elementOfHash)[2]? = some (some .containerKey) ∧
    (infer memberOfElement)[2]? = some (some .containerKey) := by
  have h : elementOfHash.take (3 + 1) = memberOfElement.take (3 + 1) := rfl
  have hslot : (infer elementOfHash)[2]? = some (some .containerKey) := by decide
  have hsame := congrArg (·[2]?) (infer_lookahead h).1
  simp only [List.getElem?_take] at hsame
  exact ⟨h, hslot, hsame.symm.trans hslot⟩

-- without the token after it the word would be a statement
example : let f : Token := ⟨.identifier, "f", ⟨1, 1⟩⟩
    infer [f] = [some .statementCall] ∧
    infer [f, ⟨.operator, "=>", ⟨1, 2⟩⟩] = [some .containerKey, none] := by
  decide

end Slot

end WordRole
