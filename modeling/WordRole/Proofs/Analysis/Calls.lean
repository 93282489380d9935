import WordRole.Proofs.Analysis.Causality

/-!
# Repeated calls

`Analyzer.calls` asks an analyzer for its next item a number of times, also when there is none left.

* `calls_eq`: the results are the items of a whole pass in order, and nothing after them;
* `exists_advance_calls`: calls come to whole tokens, and the last of these is the item's;
* `tokens_of_item`: after the item of a token, that token and the one after it have been drawn;
* `drain_calls`: what is found in the end does not depend on the calls before.
-/

namespace WordRole

namespace Analyzer

/-- the results of a number of calls of `next`, and the analyzer after them -/
def calls (a : Analyzer) : Nat → List (Option Item) × Analyzer
  | 0 => ([], a)
  | k + 1 => (a.next.1 :: (a.next.2.calls k).1, (a.next.2.calls k).2)

def remaining (a : Analyzer) : List Item := (a.pass none a.tokens.toList).1

/-- Whether exactly the first `n` tokens of a source have been drawn from it. -/
def Pulled (a : Analyzer) (ts : List SlottedToken) (n : Nat) : Prop :=
  n ≤ ts.length ∧ a.tokens.source = ts.drop n

/-! ### Turns -/

/-- A turn is the step at the first token left, after which the one that follows has been looked
at. -/
theorem exists_step_of_turn? {a b : Analyzer} {item : Option Item}
    (h : a.turn? = some (item, b)) :
    ∃ t ts, a.abort = none ∧ a.tokens.toList = t :: ts ∧
      item = (a.step t (ts.head?.map (·.token))).1 ∧
      b = (a.step t (ts.head?.map (·.token))).2.withTokens (.looked ts) := by
  have ha : a.abort = none := by
    cases ha : a.abort with
    | none => rfl
    | some e =>
      rw [turn?_of_abort (by rw [ha]; rfl)] at h
      cases h
  cases hl : a.tokens.toList with
  | nil => rw [turn?_of_nil hl] at h; cases h
  | cons t ts =>
    rw [turn?_of_cons ha hl, step_withTokens] at h
    obtain ⟨rfl, rfl⟩ := Prod.mk.inj (Option.some.inj h)
    exact ⟨t, ts, ha, rfl, rfl, rfl⟩

theorem tokens_of_turn? {a b : Analyzer} {item : Option Item} (h : a.turn? = some (item, b)) :
    b.tokens = .looked a.tokens.toList.tail := by
  obtain ⟨t, ts, -, hl, -, rfl⟩ := exists_step_of_turn? h
  rw [hl]
  rfl

theorem advance_of_turn?_none {a : Analyzer} (h : a.turn? = none) (n : Nat) :
    a.advance n = ([], a) := by
  cases n with
  | zero => rfl
  | succ n => simp only [advance, h]

theorem advance_succ {a b : Analyzer} {item : Option Item} (h : a.turn? = some (item, b))
    (n : Nat) : a.advance (n + 1) = (item.toList ++ (b.advance n).1, (b.advance n).2) := by
  simp only [advance, h]

theorem advance_add (a : Analyzer) (m n : Nat) :
    a.advance (m + n) = ((a.advance m).1 ++ ((a.advance m).2.advance n).1,
      ((a.advance m).2.advance n).2) := by
  induction m generalizing a with
  | zero => simp [advance]
  | succ m ih =>
    rw [Nat.add_right_comm]
    cases h : a.turn? with
    | none => simp [advance_of_turn?_none h]
    | some turn =>
      obtain ⟨item, b⟩ := turn
      rw [advance_succ h, advance_succ h, ih, List.append_assoc]

theorem toList_tokens_of_turn?_none {a : Analyzer} (ha : a.abort = none) (h : a.turn? = none) :
    a.tokens.toList = [] := by
  cases hl : a.tokens.toList with
  | nil => rfl
  | cons t ts =>
    rw [turn?_of_cons ha hl] at h
    cases h

/-- As long as there is no fault, every turn reads one token. -/
theorem toList_tokens_of_abort {a : Analyzer} {n : Nat} (h : (a.advance n).2.abort = none) :
    (a.advance n).2.tokens.toList = a.tokens.toList.drop n := by
  induction n generalizing a with
  | zero => rfl
  | succ n ih =>
    cases ht : a.turn? with
    | none =>
      rw [advance_of_turn?_none ht] at h ⊢
      rw [toList_tokens_of_turn?_none h ht, List.drop_nil]
    | some turn =>
      obtain ⟨item, b⟩ := turn
      rw [advance_succ ht] at h ⊢
      have hb : b.tokens.toList = a.tokens.toList.tail := by
        rw [tokens_of_turn? ht, Lookahead.toList_looked]
      rw [ih h, hb, List.drop_tail]

/-- As long as there is another turn, every turn before has read one token. -/
theorem toList_tokens_advance {a : Analyzer} {n : Nat} (h : (a.advance n).2.turn? ≠ none) :
    (a.advance n).2.tokens.toList = a.tokens.toList.drop n := by
  obtain ⟨⟨item, b⟩, ht⟩ := Option.ne_none_iff_exists'.mp h
  obtain ⟨t, ts, habort, -⟩ := exists_step_of_turn? ht
  exact toList_tokens_of_abort habort

theorem classifications_advance (a : Analyzer) (n : Nat) :
    (a.advance n).2.findings.classifications =
      a.findings.classifications ++ classified (a.advance n).1 := by
  obtain ⟨l, hl⟩ := advance_eq_pass (a := a) rfl n
  rw [hl]
  exact classifications_pass a _ _

theorem notices_advance (a : Analyzer) (n : Nat) :
    a.findings.notices <+: (a.advance n).2.findings.notices := by
  obtain ⟨l, hl⟩ := advance_eq_pass (a := a) rfl n
  rw [hl]
  exact notices_pass a _ _

/-! ### One call -/

/-- A call takes turns without items, and then one with an item unless there is no other. -/
theorem exists_advance_next (a : Analyzer) :
    ∃ n, (a.advance n).1 = [] ∧
      (((a.advance n).2.turn? = none ∧ a.next = (none, (a.advance n).2)) ∨
        ∃ item b, (a.advance n).2.turn? = some (some item, b) ∧ a.next = (some item, b)) := by
  generalize hl : a.tokens.toList = ts
  induction ts generalizing a with
  | nil =>
    have ht := turn?_of_nil hl
    exact ⟨0, rfl, .inl ⟨ht, next_of_turn?_none ht⟩⟩
  | cons t ts ih =>
    cases ht : a.turn? with
    | none => exact ⟨0, rfl, .inl ⟨ht, next_of_turn?_none ht⟩⟩
    | some turn =>
      obtain ⟨item, b⟩ := turn
      cases item with
      | some item => exact ⟨0, rfl, .inr ⟨item, b, ht, next_of_item ht⟩⟩
      | none =>
        have hb : b.tokens.toList = ts := by
          rw [tokens_of_turn? ht, hl, Lookahead.toList_looked, List.tail_cons]
        obtain ⟨n, hn, hnext⟩ := ih b hb
        refine ⟨n + 1, ?_, ?_⟩ <;> rw [advance_succ ht]
        · exact hn
        · rw [next_of_idle ht]
          exact hnext

theorem remaining_of_turn?_none {a : Analyzer} (h : a.turn? = none) : a.remaining = [] := by
  unfold remaining
  by_cases ha : a.abort.isSome
  · rw [pass_of_abort ha]
  · have ha : a.abort = none := by simpa using ha
    cases hl : a.tokens.toList with
    | nil => rfl
    | cons t ts => rw [turn?_of_cons ha hl] at h; cases h

theorem remaining_of_turn? {a b : Analyzer} {item : Option Item} (h : a.turn? = some (item, b)) :
    a.remaining = item.toList ++ b.remaining := by
  obtain ⟨t, ts, ha, hl, rfl, rfl⟩ := exists_step_of_turn? h
  have hb : ∀ c : Analyzer, (c.withTokens (.looked ts)).tokens.toList = ts :=
    fun _ => Lookahead.toList_looked ts
  unfold remaining
  rw [hl, hb, pass_cons ha none t ts (Option.or_none), pass_withTokens]

theorem remaining_advance (a : Analyzer) (n : Nat) :
    a.remaining = (a.advance n).1 ++ (a.advance n).2.remaining := by
  induction n generalizing a with
  | zero => rfl
  | succ n ih =>
    cases h : a.turn? with
    | none => rw [advance_of_turn?_none h]; rfl
    | some turn =>
      obtain ⟨item, b⟩ := turn
      rw [remaining_of_turn? h, advance_succ h, ih b, List.append_assoc]

/-- A call takes the first of the items that are still to come. -/
theorem next_remaining (a : Analyzer) :
    a.next.1 = a.remaining.head? ∧ a.next.2.remaining = a.remaining.tail := by
  obtain ⟨n, hn, hnext⟩ := a.exists_advance_next
  have hr := a.remaining_advance n
  rw [hn, List.nil_append] at hr
  rcases hnext with ⟨ht, hnext⟩ | ⟨item, b, ht, hnext⟩
  · have hnil := remaining_of_turn?_none ht
    rw [hnext, hr, hnil]
    exact ⟨rfl, rfl⟩
  · rw [hnext, hr, remaining_of_turn? ht]
    exact ⟨rfl, rfl⟩

/-! ### Several calls -/

theorem calls_add (a : Analyzer) (m n : Nat) :
    a.calls (m + n) = ((a.calls m).1 ++ ((a.calls m).2.calls n).1, ((a.calls m).2.calls n).2) := by
  induction m generalizing a with
  | zero => simp [calls]
  | succ m ih => simp [Nat.add_right_comm, calls, ih]

theorem calls_eq (a : Analyzer) (k : Nat) :
    (a.calls k).1 =
      (a.remaining.map some).take k ++ List.replicate (k - a.remaining.length) none := by
  induction k generalizing a with
  | zero => simp [calls]
  | succ k ih =>
    obtain ⟨hhead, htail⟩ := a.next_remaining
    rw [calls, hhead, ih, htail]
    cases a.remaining with
    | nil => simp [List.replicate_succ]
    | cons item items => simp

theorem exists_advance_calls (a : Analyzer) (k : Nat) :
    ∃ n, a.advance n = ((a.calls k).1.filterMap id, (a.calls k).2) := by
  induction k generalizing a with
  | zero => exact ⟨0, rfl⟩
  | succ k ih =>
    obtain ⟨m, hm, hnext⟩ := a.exists_advance_next
    obtain ⟨n, hn⟩ := ih a.next.2
    rcases hnext with ⟨ht, hnext⟩ | ⟨item, b, ht, hnext⟩
    · rw [hnext] at hn
      refine ⟨m + n, ?_⟩
      rw [advance_add, hm, hn, calls, hnext]
      simp
    · rw [hnext] at hn
      refine ⟨m + (n + 1), ?_⟩
      rw [advance_add, hm, advance_succ ht, hn, calls, hnext]
      simp

/-- The last call ends with the turn that its item comes from. -/
theorem exists_turn_of_calls {a : Analyzer} {k : Nat} {earlier : List (Option Item)} {item : Item}
    (h : (a.calls k).1 = earlier ++ [some item]) :
    ∃ i, (a.advance i).1 = earlier.filterMap id ∧
      (a.advance i).2.turn? = some (some item, (a.calls k).2) := by
  cases k with
  | zero => simp [calls] at h
  | succ k =>
    rw [calls_add] at h ⊢
    have hlast : (a.calls k).1 ++ [(a.calls k).2.next.1] = earlier ++ [some item] := h
    obtain ⟨hearlier, hitem⟩ := List.append_inj' hlast rfl
    obtain ⟨m, hm⟩ := a.exists_advance_calls k
    obtain ⟨n, hn, hnext⟩ := (a.calls k).2.exists_advance_next
    refine ⟨m + n, ?_, ?_⟩ <;> rw [advance_add, hm]
    · rw [hn, hearlier, List.append_nil]
    · rcases hnext with ⟨-, hnext⟩ | ⟨item', b, ht, hnext⟩
      · rw [hnext] at hitem
        cases hitem
      · rw [hnext] at hitem
        obtain rfl : item' = item := by simpa using hitem
        rw [ht]
        show some (some item', b) = some (some item', (a.calls k).2.next.2)
        rw [hnext]

/-! ### What has been drawn -/

theorem tokens_of_item {ts : List SlottedToken} {notices : List Notice} {i : Nat}
    {item : Option Item} {b : Analyzer}
    (h : ((start ts notices).advance i).2.turn? = some (item, b)) :
    i < ts.length ∧ b.Pulled ts (min (i + 2) ts.length) := by
  have hl : ((start ts notices).advance i).2.tokens.toList = ts.drop i :=
    toList_tokens_advance (by rw [h]; exact Option.some_ne_none _)
  have hi : i < ts.length := by
    obtain ⟨t, rest, -, hrest, -⟩ := exists_step_of_turn? h
    rw [hl] at hrest
    have hne : ts.drop i ≠ [] := by rw [hrest]; exact List.cons_ne_nil _ _
    simpa using hne
  have hb : b.tokens.source = ts.drop (i + 2) := by
    rw [tokens_of_turn? h, hl, Lookahead.looked, List.tail_drop, List.tail_drop]
  refine ⟨hi, Nat.min_le_right _ _, ?_⟩
  rw [hb]
  rcases Nat.le_total (i + 2) ts.length with hle | hle
  · rw [Nat.min_eq_left hle]
  · rw [Nat.min_eq_right hle, List.drop_length, List.drop_of_length_le hle]

theorem source_of_turn?_none {a : Analyzer} (ha : a.abort = none) (h : a.turn? = none) :
    a.tokens.source = [] :=
  (List.append_eq_nil_iff.mp (toList_tokens_of_turn?_none ha h)).2

/-! ### The end -/

theorem drain_next (a : Analyzer) : a.next.2.drain = a.drain := by
  obtain ⟨n, -, hnext⟩ := a.exists_advance_next
  rw [drain_eq a]
  rcases hnext with ⟨ht, hnext⟩ | ⟨item, b, ht, hnext⟩ <;> rw [hnext]
  exact drain_of_turn?_none ht

theorem drain_calls (a : Analyzer) (k : Nat) : (a.calls k).2.drain = a.drain := by
  induction k generalizing a with
  | zero => rfl
  | succ k ih => exact (ih a.next.2).trans a.drain_next

theorem calls_of_turn?_none {a : Analyzer} (h : a.turn? = none) (k : Nat) :
    a.calls k = (List.replicate k none, a) := by
  induction k with
  | zero => rfl
  | succ k ih => rw [calls, next_of_turn?_none h, ih, List.replicate_succ]

/-- Once a call has come to nothing, no token is left, or the pass has been stopped. -/
theorem turn?_of_none_mem {a : Analyzer} {k : Nat} (h : none ∈ (a.calls k).1) :
    (a.calls k).2.turn? = none := by
  induction k generalizing a with
  | zero => simp [calls] at h
  | succ k ih =>
    rcases List.mem_cons.mp h with hnone | hmore
    · obtain ⟨n, -, hnext⟩ := a.exists_advance_next
      rcases hnext with ⟨ht, hnext⟩ | ⟨item, b, -, hnext⟩ <;> rw [hnext] at hnone
      · rw [calls, hnext, calls_of_turn?_none ht]
        exact ht
      · cases hnone
    · exact ih hmore

end Analyzer

end WordRole
