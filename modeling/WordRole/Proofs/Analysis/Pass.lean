import WordRole.Analysis.Analyzer

/-!
# The pass, token by token

`Analyzer.next` draws tokens through a lookahead and stops at items only.  Here the same pass is
taken one token at a time, and then over a list of tokens without the lookahead:

* `advance_eq_pass`: the analyzer after a number of tokens is the one after the list of them;
* `take_eq_pass`, `drain_eq_pass`: so are the items of repeated calls, and what is left at the end;
* `pass_append`: a pass over two lists is a pass over one after the other;
* `pass_invariant`: what every step keeps is kept by a pass;
* `run_eq_finish_pass`, `run_start`: the report, and what notices from before add to it.
-/

namespace WordRole

namespace Analyzer

/-! ### One token -/

def withTokens (a : Analyzer) (l : Lookahead SlottedToken) : Analyzer := { a with tokens := l }

/-- the analyzer with other tokens left to read, and with notices before its own -/
def framed (a : Analyzer) (l : Lookahead SlottedToken) (ns : List Notice) : Analyzer :=
  { a with tokens := l, findings := { a.findings with notices := ns ++ a.findings.notices } }

/-- The analyzer after its next token, with what that token comes to.  After the fault, and at the
end, no token is read. -/
def turn? (a : Analyzer) : Option (Option Item × Analyzer) :=
  if a.abort.isSome then none
  else a.tokens.next?.map fun read =>
    (a.withTokens read.2.peek.2).step read.1 (read.2.peek.1.map (·.token))

/-- the analyzer after a number of tokens, with the items on the way -/
def advance (a : Analyzer) : Nat → List Item × Analyzer
  | 0 => ([], a)
  | n + 1 =>
    match a.turn? with
    | none => ([], a)
    | some (item, b) => (item.toList ++ (b.advance n).1, (b.advance n).2)

/-- The analyzer after a list of tokens, with their items; `next` is the token that follows them. -/
def pass (a : Analyzer) (next : Option Token) : List SlottedToken → List Item × Analyzer
  | [] => ([], a)
  | t :: ts =>
    if a.abort.isSome then ([], a)
    else
      let turn := a.step t ((ts.head?.map (·.token)).or next)
      let more := turn.2.pass next ts
      (turn.1.toList ++ more.1, more.2)

/-! ### A step looks neither at the tokens left nor at the notices before it -/

@[simp] theorem abort_withTokens (a : Analyzer) (l : Lookahead SlottedToken) :
    (a.withTokens l).abort = a.abort := rfl

@[simp] theorem findings_withTokens (a : Analyzer) (l : Lookahead SlottedToken) :
    (a.withTokens l).findings = a.findings := rfl

@[simp] theorem withTokens_withTokens (a : Analyzer) (l m : Lookahead SlottedToken) :
    (a.withTokens l).withTokens m = a.withTokens m := rfl

theorem toList_tokens_start (ts : List SlottedToken) (notices : List Notice) :
    (start ts notices).tokens.toList = ts := rfl

theorem declare_framed (a : Analyzer) (l : Lookahead SlottedToken) (ns : List Notice)
    (d : Declaration) : (a.framed l ns).declare d = (a.declare d).framed l ns := by
  unfold declare
  have hd : (a.framed l ns).declared = a.declared := rfl
  rw [hd]
  cases a.declared.record d with
  | ok t => rfl
  | error r => simp [framed, log, Findings.notice]

theorem add_framed (a : Analyzer) (l : Lookahead SlottedToken) (ns : List Notice)
    (t : Token) (r : Ruling) : (a.framed l ns).add t r = (a.add t r).framed l ns := by
  unfold add
  cases r.declares with
  | none => rfl
  | some kind => simp only [declare_framed]; rfl

theorem scanString_framed (a : Analyzer) (l : Lookahead SlottedToken) (ns : List Notice)
    (t : Token) : (a.framed l ns).scanString t = (a.scanString t).framed l ns := by
  unfold scanString
  split
  · simp [framed, Findings.notice]
  · rfl

theorem step_framed (a : Analyzer) (l : Lookahead SlottedToken) (ns : List Notice)
    (t : SlottedToken) (n : Option Token) :
    (a.framed l ns).step t n = ((a.step t n).1, (a.step t n).2.framed l ns) := by
  unfold step
  cases t.slot with
  | none => simp only [scanString_framed]; rfl
  | some slot =>
    simp only [visit]
    have ho : Occurrence.mk t.token slot (a.framed l ns).previous n (a.framed l ns).declared =
        Occurrence.mk t.token slot a.previous n a.declared := rfl
    rw [ho]
    split
    · simp only [add_framed]; rfl
    · rfl
    · rfl

theorem pass_framed (a : Analyzer) (l : Lookahead SlottedToken) (ns : List Notice)
    (next : Option Token) (ts : List SlottedToken) :
    (a.framed l ns).pass next ts = ((a.pass next ts).1, (a.pass next ts).2.framed l ns) := by
  induction ts generalizing a with
  | nil => rfl
  | cons t ts ih =>
    have ha : (a.framed l ns).abort = a.abort := rfl
    simp only [pass, ha, step_framed, ih]
    split <;> rfl

theorem step_withTokens (a : Analyzer) (l : Lookahead SlottedToken) (t : SlottedToken)
    (n : Option Token) :
    (a.withTokens l).step t n = ((a.step t n).1, (a.step t n).2.withTokens l) :=
  step_framed a l [] t n

theorem pass_withTokens (a : Analyzer) (l : Lookahead SlottedToken) (next : Option Token)
    (ts : List SlottedToken) :
    (a.withTokens l).pass next ts = ((a.pass next ts).1, (a.pass next ts).2.withTokens l) :=
  pass_framed a l [] next ts

/-! ### A pass over a list -/

@[simp] theorem pass_nil (a : Analyzer) (next : Option Token) : a.pass next [] = ([], a) := rfl

theorem pass_cons {a : Analyzer} (h : a.abort = none) (next : Option Token) (t : SlottedToken)
    (ts : List SlottedToken) {n : Option Token} (hn : (ts.head?.map (·.token)).or next = n) :
    a.pass next (t :: ts) = ((a.step t n).1.toList ++ ((a.step t n).2.pass next ts).1,
      ((a.step t n).2.pass next ts).2) := by
  simp [pass, h, hn]

theorem pass_of_abort {a : Analyzer} (h : a.abort.isSome) (next : Option Token)
    (ts : List SlottedToken) : a.pass next ts = ([], a) := by
  cases ts with
  | nil => rfl
  | cons t ts => simp [pass, h]

theorem pass_append (a : Analyzer) (next : Option Token) (xs ys : List SlottedToken)
    {n : Option Token} (hn : (ys.head?.map (·.token)).or next = n) :
    a.pass next (xs ++ ys) =
      ((a.pass n xs).1 ++ ((a.pass n xs).2.pass next ys).1, ((a.pass n xs).2.pass next ys).2) := by
  induction xs generalizing a with
  | nil => rfl
  | cons x xs ih =>
    by_cases h : a.abort.isSome
    · simp [pass_of_abort h]
    · have ha : a.abort = none := by simpa using h
      have hx : ((xs ++ ys).head?.map (·.token)).or next = (xs.head?.map (·.token)).or n := by
        cases xs <;> simp [hn]
      rw [List.cons_append, pass_cons ha next x (xs ++ ys) hx, pass_cons ha n x xs rfl, ih,
        List.append_assoc]

theorem pass_invariant {P : Analyzer → Prop}
    (hstep : ∀ a t n, a.abort = none → P a → P (a.step t n).2) {a : Analyzer} (h : P a)
    (next : Option Token) (ts : List SlottedToken) : P (a.pass next ts).2 := by
  induction ts generalizing a with
  | nil => exact h
  | cons t ts ih =>
    by_cases ha : a.abort.isSome
    · rwa [pass_of_abort ha]
    · have ha : a.abort = none := by simpa using ha
      rw [pass_cons ha next t ts rfl]
      exact ih (hstep a t _ ha h)

/-! ### One turn of the lookahead -/

theorem turn?_of_abort {a : Analyzer} (h : a.abort.isSome) : a.turn? = none := if_pos h

theorem turn?_of_nil {a : Analyzer} (h : a.tokens.toList = []) : a.turn? = none := by
  unfold turn?
  rw [Lookahead.next?_eq_none_iff.mpr h]
  simp

theorem turn?_of_cons {a : Analyzer} (ha : a.abort = none) {t : SlottedToken}
    {ts : List SlottedToken} (h : a.tokens.toList = t :: ts) :
    a.turn? = some ((a.withTokens (.looked ts)).step t (ts.head?.map (·.token))) := by
  cases hn : a.tokens.next? with
  | none => rw [Lookahead.next?_eq_none_iff.mp hn] at h; cases h
  | some read =>
    obtain ⟨x, m⟩ := read
    rw [Lookahead.toList_next? hn] at h
    obtain ⟨rfl, rfl⟩ := List.cons.inj h
    simp [turn?, ha, hn, m.peek_fst, Lookahead.peek_eq_looked (Lookahead.ahead_next? hn)]

theorem next_eq_turn? (a : Analyzer) :
    a.next = match a.turn? with
      | none => (none, a)
      | some (some item, b) => (some item, b)
      | some (none, b) => b.next := by
  rw [next]
  unfold turn?
  split
  · rfl
  · split
    · rename_i hn
      rw [hn]
      rfl
    · rename_i entry tokens hn
      rw [hn, Option.map_some]
      unfold withTokens
      split
      · rename_i item b hs
        rw [hs]
      · rename_i b hs
        rw [hs]

theorem next_of_turn?_none {a : Analyzer} (h : a.turn? = none) : a.next = (none, a) := by
  rw [next_eq_turn?, h]

theorem next_of_item {a b : Analyzer} {item : Item} (h : a.turn? = some (some item, b)) :
    a.next = (some item, b) := by
  rw [next_eq_turn?, h]

theorem next_of_idle {a b : Analyzer} (h : a.turn? = some (none, b)) : a.next = b.next := by
  rw [next_eq_turn?, h]

/-! ### The pass behind the lookahead -/

theorem advance_eq_pass {a : Analyzer} {ts : List SlottedToken} (h : a.tokens.toList = ts)
    (n : Nat) :
    ∃ l, a.advance n = ((a.pass (ts[n]?.map (·.token)) (ts.take n)).1,
      (a.pass (ts[n]?.map (·.token)) (ts.take n)).2.withTokens l) := by
  induction n generalizing a ts with
  | zero => exact ⟨a.tokens, rfl⟩
  | succ n ih =>
    cases ts with
    | nil => exact ⟨a.tokens, by simp [advance, turn?_of_nil h]; rfl⟩
    | cons t ts =>
      by_cases ha : a.abort.isSome
      · rw [pass_of_abort ha]
        exact ⟨a.tokens, by simp [advance, turn?_of_abort ha]; rfl⟩
      · have ha : a.abort = none := by simpa using ha
        have hn : ((ts.take n).head?.map (·.token)).or (ts[n]?.map (·.token)) =
            ts.head?.map (·.token) := by
          cases n <;> cases ts <;> simp
        have ht := turn?_of_cons ha h
        obtain ⟨l, hl⟩ := ih (a := (a.step t (ts.head?.map (·.token))).2.withTokens (.looked ts))
          (Lookahead.toList_looked ts)
        rw [pass_withTokens, withTokens_withTokens] at hl
        rw [step_withTokens] at ht
        refine ⟨l, ?_⟩
        rw [List.take_succ_cons, List.getElem?_cons_succ, pass_cons ha _ t _ hn]
        simp only [advance, ht, hl]

theorem advance_before {a : Analyzer} {before after : List SlottedToken} {t : SlottedToken}
    (h : a.tokens.toList = before ++ t :: after) :
    ∃ l, a.advance before.length = ((a.pass (some t.token) before).1,
      (a.pass (some t.token) before).2.withTokens l) := by
  simpa using advance_eq_pass h before.length

theorem drain_eq (a : Analyzer) :
    a.drain = match a.next with
      | (some _, b) => b.drain
      | (none, b) => b := by
  rw [drain]
  split <;> simp_all

theorem drain_of_turn? {a b : Analyzer} {item : Option Item} (h : a.turn? = some (item, b)) :
    a.drain = b.drain := by
  rw [drain_eq a]
  cases item with
  | none => rw [next_of_idle h, ← drain_eq b]
  | some i => rw [next_of_item h]

theorem drain_of_turn?_none {a : Analyzer} (h : a.turn? = none) : a.drain = a := by
  rw [drain_eq, next_of_turn?_none h]

theorem drain_eq_pass {a : Analyzer} {ts : List SlottedToken} (h : a.tokens.toList = ts) :
    ∃ l, a.drain = (a.pass none ts).2.withTokens l := by
  induction ts generalizing a with
  | nil => exact ⟨a.tokens, drain_of_turn?_none (turn?_of_nil h)⟩
  | cons t ts ih =>
    by_cases ha : a.abort.isSome
    · rw [pass_of_abort ha]
      exact ⟨a.tokens, drain_of_turn?_none (turn?_of_abort ha)⟩
    · have ha : a.abort = none := by simpa using ha
      have ht := turn?_of_cons ha h
      obtain ⟨l, hl⟩ := ih (a := (a.step t (ts.head?.map (·.token))).2.withTokens (.looked ts))
        (Lookahead.toList_looked ts)
      rw [step_withTokens] at ht
      refine ⟨l, ?_⟩
      rw [drain_of_turn? ht, hl, pass_withTokens, withTokens_withTokens,
        pass_cons ha none t ts (Option.or_none)]

theorem take_eq_pass {a : Analyzer} {ts : List SlottedToken} (h : a.tokens.toList = ts) (k : Nat) :
    (a.take k).1 = (a.pass none ts).1.take k := by
  induction ts generalizing a k with
  | nil =>
    cases k with
    | zero => rfl
    | succ k => simp [take, next_of_turn?_none (turn?_of_nil h)]
  | cons t ts ih =>
    cases k with
    | zero => simp [take]
    | succ k =>
      by_cases ha : a.abort.isSome
      · rw [pass_of_abort ha]
        simp [take, next_of_turn?_none (turn?_of_abort ha)]
      · have ha : a.abort = none := by simpa using ha
        have ht := turn?_of_cons ha h
        have ih := ih (a := (a.step t (ts.head?.map (·.token))).2.withTokens (.looked ts))
          (Lookahead.toList_looked ts)
        simp only [pass_withTokens] at ih
        rw [step_withTokens] at ht
        rw [pass_cons ha none t ts (Option.or_none)]
        cases hi : (a.step t (ts.head?.map (·.token))).1 with
        | none =>
          rw [hi] at ht
          have hk := ih (k + 1)
          simp only [take] at hk
          simp only [take, next_of_idle ht, hk, Option.toList_none, List.nil_append]
        | some i =>
          rw [hi] at ht
          simp only [take, next_of_item ht, ih k, Option.toList_some, List.cons_append,
            List.nil_append, List.take_succ_cons]

theorem length_items_le (a : Analyzer) (next : Option Token) (ts : List SlottedToken) :
    (a.pass next ts).1.length ≤ ts.length := by
  induction ts generalizing a with
  | nil => exact Nat.le_refl _
  | cons t ts ih =>
    by_cases ha : a.abort.isSome
    · simp [pass_of_abort ha]
    · have ha : a.abort = none := by simpa using ha
      rw [pass_cons ha next t ts rfl]
      have hm := ih (a.step t ((ts.head?.map (·.token)).or next)).2
      cases (a.step t ((ts.head?.map (·.token)).or next)).1 <;> simp <;> omega

/-! ### The report -/

theorem run_eq_finish_pass (ts : List SlottedToken) (notices : List Notice) (unit : String)
    (mode : Mode) : (start ts notices).run unit mode =
      ((start ts notices).pass none ts).2.finish unit mode := by
  obtain ⟨l, hl⟩ := drain_eq_pass (toList_tokens_start ts notices)
  rw [run, hl]
  rfl

/-- What a pass over tokens comes to does not depend on the tokens that are left to read. -/
theorem pass_start (ts us : List SlottedToken) (notices : List Notice) (next : Option Token)
    (vs : List SlottedToken) : (start us notices).pass next vs =
      (((start ts notices).pass next vs).1,
        ((start ts notices).pass next vs).2.withTokens (.ofList us)) :=
  pass_withTokens (start ts notices) (.ofList us) next vs

theorem start_eq_framed (ts : List SlottedToken) (notices : List Notice) :
    start ts notices = (start ts []).framed (.ofList ts) notices := by
  simp [start, framed]

/-- Notices that are there from the start come before all others, and change nothing else. -/
theorem run_start (ts : List SlottedToken) (notices : List Notice) (unit : String) (mode : Mode) :
    (start ts notices).run unit mode =
      { (start ts []).run unit mode with
        notices := notices ++ ((start ts []).run unit mode).notices } := by
  rw [run_eq_finish_pass, run_eq_finish_pass, start_eq_framed, pass_framed]
  rfl

end Analyzer

end WordRole
