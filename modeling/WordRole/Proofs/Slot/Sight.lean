import WordRole.Proofs.Slot.Walk

/-!
# How far the walk sees

The slot of a token is told by a few of the tokens around it, so tokens farther away may be
replaced:

* `SlotWalk.slotted_of_aheadAlike`: tokens that come later, where what is promised from before them
  stays as it is;
* `SlotWalk.slotted_withBefore`: tokens that came earlier, behind one that hides them
  (`Token.Hides`), such as a closing parenthesis, a comma or an arrow.
-/

namespace WordRole

namespace SlotWalk

/-! ### Tokens with their slots -/

/-- the tokens of a list with their slots, before others that follow -/
def slotted (w : SlotWalk) (ahead : List Token) : List Token → List SlottedToken
  | [] => []
  | t :: ts => ⟨t, w.slot t (ts ++ ahead)⟩ :: (w.after t (ts ++ ahead)).slotted ahead ts

theorem slotted_append (w : SlotWalk) (ahead xs ys : List Token) :
    w.slotted ahead (xs ++ ys) =
      w.slotted (ys ++ ahead) xs ++ (w.afterAll (ys ++ ahead) xs).slotted ahead ys := by
  induction xs generalizing w with
  | nil => rfl
  | cons x xs ih => simp only [List.cons_append, slotted, afterAll, ih, List.append_assoc]

theorem zipWith_slots (w : SlotWalk) (ts : List Token) :
    ts.zipWith SlottedToken.mk (w.slots ts) = w.slotted [] ts := by
  induction ts generalizing w with
  | nil => rfl
  | cons t ts ih => simp only [slots, slotted, List.zipWith_cons_cons, ih, List.append_nil]

theorem infer_eq_slotted (ts : List Token) : SlottedToken.infer ts = start.slotted [] ts :=
  start.zipWith_slots ts

theorem map_token_slotted (w : SlotWalk) (ahead ts : List Token) :
    (w.slotted ahead ts).map (·.token) = ts := by
  induction ts generalizing w with
  | nil => rfl
  | cons t ts ih => simp only [slotted, List.map_cons, ih]

theorem length_slotted (w : SlotWalk) (ahead ts : List Token) :
    (w.slotted ahead ts).length = ts.length := by
  rw [← List.length_map (f := (·.token)), map_token_slotted]

theorem before_after (w : SlotWalk) (t : Token) (rest : List Token) :
    (w.after t rest).before = t :: w.before := by
  unfold after
  dsimp only
  split
  · rfl
  · split <;> rfl

/-! ### Tokens ahead -/

/-- Two lists of tokens that look the same from before them: they start with the same token, which
is none that a promise goes past, and the same is promised to it. -/
structure AheadAlike (xs ys : List Token) : Prop where
  head : ys.head? = xs.head?
  key : keySlot ys = keySlot xs
  comparator : comparatorSlot ys = comparatorSlot xs
  mark : ∀ t ∈ xs.head?, t.isOperator Token.evaluationMark = false
  parenthesis : ∀ t ∈ xs.head?, t.isDelimiter "(" = false

end SlotWalk

/-- A promise that goes past one token at most, and looks one token farther than it goes, is the
same before lists that look the same. -/
theorem Promise.skipping_congr {skip : Token → Bool} {find : List Token → Option Slot}
    (hfind : ∀ t us vs, us.head? = vs.head? → find (t :: us) = find (t :: vs))
    {xs ys : List Token} (hhead : ys.head? = xs.head?) (hsame : find ys = find xs)
    (hskip : ∀ t ∈ xs.head?, skip t = false) (ts : List Token) :
    skipping skip find (ts ++ ys) = skipping skip find (ts ++ xs) := by
  have happend : ∀ us : List Token, (us ++ ys).head? = (us ++ xs).head? := by
    intro us
    rw [List.head?_append, List.head?_append, hhead]
  rcases ts with _ | ⟨t, ts⟩
  · rcases xs with _ | ⟨x, xs⟩
    · rw [List.head?_eq_none_iff.mp hhead]
    · obtain ⟨ys, rfl⟩ := List.head?_eq_some_iff.mp hhead
      have hx : skip x = false := hskip x rfl
      simp only [List.nil_append, skipping_cons, hx, hsame, Bool.false_eq_true, if_false]
  · have hnext : find (ts ++ ys) = find (ts ++ xs) := by
      rcases ts with _ | ⟨u, us⟩
      · exact hsame
      · exact hfind u _ _ (happend us)
    rw [List.cons_append, List.cons_append, skipping_cons, skipping_cons, hnext,
      hfind t _ _ (happend ts)]

namespace SlotWalk

theorem keySlot_congr (t : Token) (us vs : List Token) (h : us.head? = vs.head?) :
    keySlot (t :: us) = keySlot (t :: vs) := by
  simp only [keySlot, h]

theorem comparatorSlot_congr (t : Token) (us vs : List Token) (h : us.head? = vs.head?) :
    comparatorSlot (t :: us) = comparatorSlot (t :: vs) := by
  simp only [comparatorSlot, h]

/-- After the same token, it is asked only whether the next one invokes it or starts a list. -/
theorem aheadAlike_cons {t : Token} (hmark : t.isOperator Token.evaluationMark = false)
    (hparenthesis : t.isDelimiter "(" = false) {xs ys : List Token}
    (hinvoked : t.isBareword = true → isInvoked ys.head? = isInvoked xs.head?)
    (hlist : ys.head?.any startsList = xs.head?.any startsList) :
    AheadAlike (t :: xs) (t :: ys) where
  head := rfl
  key := by
    rw [keySlot, keySlot]
    cases hb : t.isBareword
    · rfl
    · rw [hinvoked hb]
  comparator := by simp only [comparatorSlot, hlist]
  mark := by
    rintro u ⟨⟩
    exact hmark
  parenthesis := by
    rintro u ⟨⟩
    exact hparenthesis

section Ahead

variable {xs ys : List Token} (h : AheadAlike xs ys)

include h

theorem slot_of_aheadAlike (w : SlotWalk) (t : Token) (ts : List Token) :
    w.slot t (ts ++ ys) = w.slot t (ts ++ xs) := by
  simp only [slot, List.head?_append, h.head]

theorem after_of_aheadAlike (w : SlotWalk) (t : Token) (ts : List Token) :
    w.after t (ts ++ ys) = w.after t (ts ++ xs) := by
  have hsubscript : subscriptPromise (ts ++ ys) = subscriptPromise (ts ++ xs) :=
    Promise.skipping_congr keySlot_congr h.head h.key h.mark ts
  have hsort : sortPromise (ts ++ ys) = sortPromise (ts ++ xs) :=
    Promise.skipping_congr comparatorSlot_congr h.head h.comparator h.parenthesis ts
  unfold after
  rw [hsubscript, hsort]

theorem slotted_of_aheadAlike (w : SlotWalk) (ts : List Token) :
    w.slotted ys ts = w.slotted xs ts := by
  induction ts generalizing w with
  | nil => rfl
  | cons t ts ih =>
    simp only [slotted, slot_of_aheadAlike h, after_of_aheadAlike h, ih]

theorem afterAll_of_aheadAlike (w : SlotWalk) (ts : List Token) :
    w.afterAll ys ts = w.afterAll xs ts := by
  induction ts generalizing w with
  | nil => rfl
  | cons t ts ih => simp only [afterAll, after_of_aheadAlike h, ih]

end Ahead

end SlotWalk

/-! ### Tokens behind -/

/-- A token that hides those before it: it is no word, so that it has no slot by itself and ends no
phrase, and it is no opening parenthesis or brace, before which the walk would look. -/
structure Token.Hides (t : Token) : Prop where
  kind : t.kind ≠ .identifier
  parenthesis : t.isDelimiter "(" = false
  brace : t.isDelimiter "\x7b" = false
  declarator : t.text ∉ Vocabulary.variableDeclarators

/-- Two lists of tokens, nearest first, that look the same from after them: they are the same up to
one that hides those behind it. -/
inductive BehindAlike : List Token → List Token → Prop where
  | hidden {t : Token} (h : t.Hides) (us vs : List Token) : BehindAlike (t :: us) (t :: vs)
  | near (t : Token) {us vs : List Token} (h : BehindAlike us vs) : BehindAlike (t :: us) (t :: vs)

theorem Token.Hides.not_isWord {t : Token} (h : t.Hides) (s : String) : t.isWord s = false := by
  simp [isWord, h.kind]

namespace BehindAlike

variable {us vs : List Token}

theorem getElem?_zero (h : BehindAlike us vs) : vs[0]? = us[0]? := by
  cases h <;> rfl

theorem endUseConstant (h : BehindAlike us vs) :
    Token.endUseConstant vs = Token.endUseConstant us := by
  cases h with
  | hidden ht us vs => cases us <;> cases vs <;> simp [Token.endUseConstant, ht.not_isWord]
  | near t h => cases h <;> rfl

theorem opened (h : BehindAlike us vs) (closed : Option Brace) :
    Brace.opened vs closed = Brace.opened us closed := by
  have hconstant := h.endUseConstant
  cases h <;> simp only [Brace.opened, hconstant]

end BehindAlike

namespace SlotWalk

def withBefore (w : SlotWalk) (us : List Token) : SlotWalk := { w with before := us }

section Behind

variable {w : SlotWalk} {us : List Token} (h : BehindAlike w.before us)

include h

theorem back?_one_withBefore : (w.withBefore us).back? 1 = w.back? 1 := h.getElem?_zero

theorem caller?_one_withBefore : (w.withBefore us).caller? 1 = w.caller? 1 := by
  obtain ⟨before, braces, atStart, closed, promise⟩ := w
  cases h with
  | hidden ht us vs => simp [caller?, back?, withBefore, ht.parenthesis]
  | near t h =>
    -- past a parenthesis stands the next token, which is the same as well
    simp [caller?, back?, withBefore, h.getElem?_zero]

theorem opensHandle_withBefore : (w.withBefore us).opensHandle = w.opensHandle := by
  obtain ⟨before, braces, atStart, closed, promise⟩ := w
  cases h with
  | hidden ht us vs => simp [opensHandle, back?, withBefore, ht.declarator]
  | near t h =>
    cases h with
    | hidden ht us vs => simp [opensHandle, caller?, back?, withBefore, ht.parenthesis]
    | near u h => simp [opensHandle, caller?, back?, withBefore, h.getElem?_zero]

theorem slot_withBefore (t : Token) (rest : List Token) :
    (w.withBefore us).slot t rest = w.slot t rest := by
  have hback := back?_one_withBefore h
  have hcaller := caller?_one_withBefore h
  have hopens := opensHandle_withBefore h
  have hconstant := h.endUseConstant
  have hhandle : ∀ next, (w.withBefore us).isHandle next = w.isHandle next := by
    intro next
    rw [isHandle, isHandle, hback, hcaller]
  have hbareword : ∀ next, (w.withBefore us).barewordSlot t.text next =
      w.barewordSlot t.text next := by
    intro next
    simp only [barewordSlot, hback, hhandle]
    rw [show Token.endUseConstant (w.withBefore us).before = _ from hconstant]
    rfl
  rw [slot, slot, ownSlot, ownSlot, hopens, hbareword]
  rfl

end Behind

theorem after_withBefore {w : SlotWalk} {us : List Token} {t : Token}
    (h : t.isDelimiter "\x7b" = true → Brace.opened us w.closed = Brace.opened w.before w.closed)
    (rest : List Token) :
    (w.withBefore us).after t rest = (w.after t rest).withBefore (t :: us) := by
  unfold after withBefore
  dsimp only
  by_cases hopen : t.isDelimiter "\x7b" = true
  · simp only [if_pos hopen, h hopen]
  · simp only [if_neg hopen]
    split <;> rfl

theorem slotted_withBefore {w : SlotWalk} {us : List Token} (h : BehindAlike w.before us)
    (ahead ts : List Token) : (w.withBefore us).slotted ahead ts = w.slotted ahead ts := by
  induction ts generalizing w us with
  | nil => rfl
  | cons t ts ih =>
    have hbehind : BehindAlike (w.after t (ts ++ ahead)).before (t :: us) := by
      rw [before_after]
      exact .near t h
    rw [slotted, slotted, slot_withBefore h, after_withBefore fun _ => h.opened w.closed,
      ih hbehind]

/-- A token that hides those before it hides them from the tokens that follow, and has no slot but
by a promise. -/
theorem slotted_of_hides {w : SlotWalk} {ts : List Token} (h : ∀ t ∈ ts.head?, t.Hides)
    (us ahead : List Token) : (w.withBefore us).slotted ahead ts = w.slotted ahead ts := by
  cases ts with
  | nil => rfl
  | cons t ts =>
    have ht : t.Hides := h t rfl
    have hslot : (w.withBefore us).slot t (ts ++ ahead) = w.slot t (ts ++ ahead) := by
      simp only [slot, ownSlot, ht.kind, ne_eq, not_false_eq_true, decide_true, Bool.true_or,
        if_true]
      rfl
    have hbehind : BehindAlike (w.after t (ts ++ ahead)).before (t :: us) := by
      rw [before_after]
      exact .hidden ht w.before us
    rw [slotted, slotted, hslot, after_withBefore fun hopen => ?_, slotted_withBefore hbehind]
    rw [ht.brace] at hopen
    cases hopen

end SlotWalk

end WordRole
