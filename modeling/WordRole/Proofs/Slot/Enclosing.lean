import Mathlib.Data.List.Induction
import WordRole.Proofs.Slot.Lookahead
import WordRole.Proofs.Slot.Matching

/-!
# The braces around a word

The walk keeps what the open braces have opened, and nothing of parentheses and brackets.  So a word
is known to lie in the list of a `use constant` when the innermost brace around it is the one that
opens the list, however deep it lies in lists and arrays there.

* `Slot.getElem?_openedBraces_iff`: which braces are open after some tokens;
* `Slot.head?_openedBraces_eq_constantList_iff`: when the innermost one opens a list of constants;
* `Slot.infer_eq_constantDeclaration_iff`: which words are declared as constants.
-/

namespace WordRole

/-! ### Tokens -/

namespace Token

theorem openBraces?_append (n : Nat) (xs ys : List Token) :
    openBraces? n (xs ++ ys) = (openBraces? n xs).bind (openBraces? · ys) := by
  induction xs generalizing n with
  | nil => rfl
  | cons x xs ih =>
    rw [List.cons_append, openBraces?, openBraces?]
    split
    · exact ih (n + 1)
    · split
      · split
        · rfl
        · exact ih (n - 1)
      · exact ih n

section Concat

variable {t : Token} {ts : List Token} {n : Nat}

theorem openBraces?_concat_opening (h : t.isDelimiter "\x7b" = true) :
    openBraces? 0 (ts ++ [t]) = some n ↔ ∃ m, openBraces? 0 ts = some m ∧ n = m + 1 := by
  rw [openBraces?_append, Option.bind_eq_some_iff]
  refine exists_congr fun m => and_congr_right fun _ => ?_
  rw [openBraces?, if_pos h, openBraces?, Option.some_inj, eq_comm]

theorem openBraces?_concat_closing (h : t.isDelimiter "\x7d" = true) :
    openBraces? 0 (ts ++ [t]) = some n ↔ openBraces? 0 ts = some (n + 1) := by
  have hopen : t.isDelimiter "\x7b" = false := isDelimiter_eq_of_isDelimiter h "\x7b"
  have hstep : ∀ m, openBraces? m [t] = some n ↔ m = n + 1 := by
    intro m
    rw [openBraces?, if_neg (by simp [hopen]), if_pos h]
    rcases m with _ | m
    · simp
    · simp [openBraces?]
  rw [openBraces?_append, Option.bind_eq_some_iff]
  constructor
  · rintro ⟨m, hm, hn⟩
    rw [hm, (hstep m).mp hn]
  · intro hm
    exact ⟨n + 1, hm, (hstep (n + 1)).mpr rfl⟩

theorem openBraces?_concat_other (hopen : t.isDelimiter "\x7b" = false)
    (hclose : t.isDelimiter "\x7d" = false) :
    openBraces? 0 (ts ++ [t]) = openBraces? 0 ts := by
  rw [openBraces?_append]
  have hstep : ∀ m, openBraces? m [t] = some m := by
    intro m
    rw [openBraces?, if_neg (by simp [hopen]), if_neg (by simp [hclose])]
    rfl
  simp [hstep]

end Concat

theorem endUseConstant_reverse_iff {ts : List Token} :
    endUseConstant ts.reverse = true ↔ ∃ front use constant, ts = front ++ [use, constant] ∧
      use.isWord "use" = true ∧ constant.isWord "constant" = true := by
  constructor
  · intro h
    rcases hr : ts.reverse with _ | ⟨constant, _ | ⟨use, us⟩⟩
    · rw [hr] at h
      cases h
    · rw [hr] at h
      cases h
    · rw [hr, endUseConstant, Bool.and_eq_true] at h
      have hts : ts = us.reverse ++ [use, constant] := by
        rw [← List.reverse_reverse ts, hr]
        simp
      exact ⟨us.reverse, use, constant, hts, h.2, h.1⟩
  · rintro ⟨front, use, constant, rfl, huse, hconstant⟩
    simp [endUseConstant, huse, hconstant]

/-- Whether a place, told by the tokens before it, lies in the list of a `use constant` and in no
other brace there. -/
def InConstantList (before : List Token) : Prop :=
  ∃ front use constant brace inner, before = front ++ use :: constant :: brace :: inner ∧
    use.isWord "use" = true ∧ constant.isWord "constant" = true ∧
    brace.isDelimiter "\x7b" = true ∧ Matched inner

end Token

/-! ### What a brace opens -/

namespace Brace

/-- The token before a brace tells blocks from hashes only. -/
theorem afterToken_cases (t : Token) : afterToken t = .block ∨ afterToken t = .anonymousHash := by
  unfold afterToken
  split
  case h_5 | h_6 => exact .inl rfl
  all_goals split <;> simp

theorem opened_eq_constantList_iff {before : List Token} {closed : Option Brace} :
    opened before closed = .constantList ↔ Token.endUseConstant before = true := by
  unfold opened
  split
  · simp [Token.endUseConstant]
  · split
    · simp [*]
    · rename_i t _ hconstant
      have hno : ∀ {p : Prop} [Decidable p] {b : Brace}, b ≠ .constantList →
          (if p then subscript else b) ≠ .constantList := by
        intro p _ b hb
        split
        · simp
        · exact hb
      refine iff_of_false (hno (hno ?_)) hconstant
      rcases afterToken_cases t with h | h <;> simp [h]

end Brace

/-! ### The braces that are open -/

namespace SlotWalk

/-- What is known after some tokens depends on those ahead in the promise alone. -/
theorem exists_afterAll_eq_withPromise (w : SlotWalk) (p : Promise) (rest ts : List Token) :
    ∃ q, (w.withPromise p).afterAll rest ts = (w.afterAll [] ts).withPromise q := by
  induction ts generalizing w p rest with
  | nil => exact ⟨p, rfl⟩
  | cons t ts ih =>
    have hafter : w.after t (ts ++ []) = (w.after t []).withPromise
        (w.promise.later.or (w.promised t (ts ++ []))) := after_withPromise w w.promise t _
    obtain ⟨q, hq⟩ := ih (w.after t []) (p.later.or (w.promised t (ts ++ rest))) rest
    obtain ⟨q', hq'⟩ := ih (w.after t []) (w.promise.later.or (w.promised t (ts ++ []))) []
    refine ⟨q, ?_⟩
    rw [afterAll, after_withPromise, hq, afterAll, hafter, hq']
    rfl

theorem before_afterAll_start (rest before : List Token) :
    (start.afterAll rest before).before = before.reverse := by
  rw [before_afterAll, start, List.append_nil]

theorem back?_one_afterAll_start (before rest : List Token) :
    (start.afterAll rest before).back? 1 = before.getLast? := by
  rw [back?, before_afterAll_start, ← List.head?_eq_getElem?, List.head?_reverse]

end SlotWalk

namespace Slot

/-- what is known after some tokens, when nothing follows them -/
def walkAfter (before : List Token) : SlotWalk := SlotWalk.start.afterAll [] before

/-- what the open braces after some tokens have opened, innermost first -/
def openedBraces (before : List Token) : List Brace := (walkAfter before).braces

/-- what a brace after some tokens opens -/
def opensAfter (before : List Token) : Brace :=
  Brace.opened before.reverse (walkAfter before).closed

theorem exists_afterAll_eq_walkAfter (rest before : List Token) :
    ∃ p, SlotWalk.start.afterAll rest before = (walkAfter before).withPromise p :=
  SlotWalk.exists_afterAll_eq_withPromise .start .none rest before

theorem braces_afterAll_start (rest before : List Token) :
    (SlotWalk.start.afterAll rest before).braces = openedBraces before := by
  obtain ⟨p, hp⟩ := exists_afterAll_eq_walkAfter rest before
  rw [hp]
  rfl

theorem opened_afterAll_start (rest before : List Token) :
    Brace.opened (SlotWalk.start.afterAll rest before).before
      (SlotWalk.start.afterAll rest before).closed = opensAfter before := by
  obtain ⟨p, hp⟩ := exists_afterAll_eq_walkAfter rest before
  rw [SlotWalk.before_afterAll_start, hp]
  rfl

theorem openedBraces_concat (before : List Token) (t : Token) :
    openedBraces (before ++ [t]) =
      if t.isDelimiter "\x7b" then opensAfter before :: openedBraces before
      else if t.isDelimiter "\x7d" then (openedBraces before).tail
      else openedBraces before := by
  rw [openedBraces, walkAfter, SlotWalk.afterAll_concat, SlotWalk.braces_after,
    opened_afterAll_start, braces_afterAll_start]

end Slot

/-- A list is split at an element of it, or of its front. -/
theorem exists_split_concat_iff {α : Type} {xs : List α} {x : α}
    {p : List α → α → List α → Prop} :
    (∃ front y inner, xs ++ [x] = front ++ y :: inner ∧ p front y inner) ↔
      p xs x [] ∨ ∃ front y inner, xs = front ++ y :: inner ∧ p front y (inner ++ [x]) := by
  constructor
  · rintro ⟨front, y, inner, h, hp⟩
    rcases List.eq_nil_or_concat inner with rfl | ⟨init, z, rfl⟩
    · obtain ⟨rfl, hx⟩ := List.append_inj' h rfl
      obtain rfl : x = y := List.head_eq_of_cons_eq hx
      exact .inl hp
    · rw [List.concat_eq_append, ← List.cons_append, ← List.append_assoc] at h
      obtain ⟨hxs, hx⟩ := List.append_inj' h rfl
      obtain rfl : x = z := List.head_eq_of_cons_eq hx
      rw [List.concat_eq_append] at hp
      exact .inr ⟨front, y, init, hxs, hp⟩
  · rintro (hp | ⟨front, y, inner, rfl, hp⟩)
    · exact ⟨xs, x, [], rfl, hp⟩
    · exact ⟨front, y, inner ++ [x], by simp, hp⟩

namespace Slot

/-- The braces open after some tokens are those after which the tokens leave braces open: as many as
stand inside it. -/
theorem getElem?_openedBraces_iff {before : List Token} {n : Nat} {b : Brace} :
    (openedBraces before)[n]? = some b ↔
      ∃ front brace inner, before = front ++ brace :: inner ∧ brace.isDelimiter "\x7b" = true ∧
        Token.openBraces? 0 inner = some n ∧ opensAfter front = b := by
  induction before using List.reverseRecOn generalizing n with
  | nil => simp [openedBraces, walkAfter, SlotWalk.afterAll, SlotWalk.start]
  | append_singleton before t ih =>
    rw [openedBraces_concat, exists_split_concat_iff]
    cases hopen : t.isDelimiter "\x7b"
    · cases hclose : t.isDelimiter "\x7d"
      · simp only [Bool.false_eq_true, if_false, false_and, false_or,
          Token.openBraces?_concat_other hopen hclose]
        exact ih
      · simp only [Bool.false_eq_true, if_false, if_true, false_and, false_or,
          Token.openBraces?_concat_closing hclose, List.getElem?_tail]
        exact ih
    · simp only [if_true, true_and, Token.openBraces?_concat_opening hopen]
      rcases n with _ | n
      · simp [Token.openBraces?]
      · simp only [List.getElem?_cons_succ, ih, Token.openBraces?, Nat.add_right_cancel_iff,
          exists_eq_right']
        simp

/-- The innermost open brace opens a list of constants where a `use constant` stands before it. -/
theorem head?_openedBraces_eq_constantList_iff {before : List Token} :
    (openedBraces before).head? = some .constantList ↔ Token.InConstantList before := by
  rw [List.head?_eq_getElem?, getElem?_openedBraces_iff]
  simp only [opensAfter, Brace.opened_eq_constantList_iff, Token.endUseConstant_reverse_iff]
  constructor
  · rintro ⟨_, brace, inner, rfl, hbrace, hinner, front, use, constant, rfl, huse, hconstant⟩
    exact ⟨front, use, constant, brace, inner, by simp, huse, hconstant, hbrace, hinner⟩
  · rintro ⟨front, use, constant, brace, inner, rfl, huse, hconstant, hbrace, hinner⟩
    exact ⟨front ++ [use, constant], brace, inner, by simp, hbrace, hinner, front, use, constant,
      rfl, huse, hconstant⟩

end Slot

/-! ### What is promised to a word -/

/-- Whether the tokens before a place, nearest first, end in an opening brace, or in one with a mark
after it. -/
def Token.endOpening : List Token → Bool
  | [] => false
  | t :: ts => t.isDelimiter "\x7b" ||
      (t.isOperator evaluationMark && ts.head?.any (·.isDelimiter "\x7b"))

/-- whether a place is that of the first word in a subscript -/
def Slot.startsSubscript (before : List Token) : Bool :=
  Token.endOpening before.reverse && (openedBraces before).head? = some .subscript

namespace SlotWalk

theorem comparatorSlot_ne_containerKey (ts : List Token) :
    comparatorSlot ts ≠ some .containerKey := by
  unfold comparatorSlot
  split
  · simp
  · repeat' split
    all_goals simp

theorem sortPromise_ne_containerKey (rest : List Token) :
    (sortPromise rest).next ≠ some .containerKey ∧
    (sortPromise rest).afterNext ≠ some .containerKey := by
  unfold sortPromise Promise.skipping
  split
  · simp [Promise.none]
  · split <;> simp [comparatorSlot_ne_containerKey]

/-- A token other than the brace of a subscript promises no key. -/
theorem promised_ne_containerKey {w : SlotWalk} {u : Token}
    (h : ¬(u.isDelimiter "\x7b" = true ∧ Brace.opened w.before w.closed = .subscript))
    (rest : List Token) : (w.promised u rest).next ≠ some .containerKey ∧
      (w.promised u rest).afterNext ≠ some .containerKey := by
  unfold promised
  split
  · rename_i hopen
    rw [if_neg fun hsubscript => h ⟨hopen, hsubscript⟩]
    simp [Promise.none]
  · split
    · exact sortPromise_ne_containerKey rest
    · simp [Promise.none]

theorem promised_of_subscript {w : SlotWalk} {u : Token} (h : u.isDelimiter "\x7b" = true)
    (hsubscript : Brace.opened w.before w.closed = .subscript) (rest : List Token) :
    w.promised u rest = subscriptPromise rest := by
  rw [promised, if_pos h, if_pos hsubscript]

theorem next_promised_eq_containerKey_iff (w : SlotWalk) (u t : Token) (rest : List Token) :
    (w.promised u (t :: rest)).next = some .containerKey ↔
      (u.isDelimiter "\x7b" = true ∧ Brace.opened w.before w.closed = .subscript) ∧
        keySlot (t :: rest) = some .containerKey := by
  by_cases h : u.isDelimiter "\x7b" = true ∧ Brace.opened w.before w.closed = .subscript
  · rw [promised_of_subscript h.1 h.2, subscriptPromise, Promise.skipping_cons]
    by_cases hmark : t.isOperator Token.evaluationMark = true
    · -- the promise goes past a mark, which is no key itself
      have hword : t.isBareword = false := by
        simp [Token.isBareword, Token.kind_of_isOperator hmark]
      simp [hmark, keySlot, hword]
    · simp [hmark, h]
  · exact iff_of_false (promised_ne_containerKey h _).1 fun hkey => h hkey.1

theorem afterNext_promised_eq_containerKey_iff (w : SlotWalk) (v u t : Token)
    (rest : List Token) : (w.promised v (u :: t :: rest)).afterNext = some .containerKey ↔
      (v.isDelimiter "\x7b" = true ∧ Brace.opened w.before w.closed = .subscript) ∧
        u.isOperator Token.evaluationMark = true ∧ keySlot (t :: rest) = some .containerKey := by
  by_cases h : v.isDelimiter "\x7b" = true ∧ Brace.opened w.before w.closed = .subscript
  · rw [promised_of_subscript h.1 h.2, subscriptPromise, Promise.skipping_cons]
    by_cases hmark : u.isOperator Token.evaluationMark = true <;> simp [hmark, h]
  · exact iff_of_false (promised_ne_containerKey h _).2 fun hkey => h hkey.1

/-- Past a token a key is promised from the brace of a subscript, if the token is a mark. -/
theorem afterNext_promise_eq_containerKey_iff (before : List Token) (u t : Token)
    (rest : List Token) :
    (start.afterAll (u :: t :: rest) before).promise.afterNext = some .containerKey ↔
      before.getLast?.any (·.isDelimiter "\x7b") = true ∧
        (Slot.openedBraces before).head? = some .subscript ∧
        u.isOperator Token.evaluationMark = true ∧ keySlot (t :: rest) = some .containerKey := by
  rcases List.eq_nil_or_concat before with rfl | ⟨init, v, rfl⟩
  · simp [afterAll, start, Promise.none]
  rw [List.concat_eq_append, afterAll_concat, afterNext_promise_after,
    afterNext_promised_eq_containerKey_iff, Slot.opened_afterAll_start, Slot.openedBraces_concat,
    List.getLast?_concat, Option.any_some]
  by_cases hv : v.isDelimiter "\x7b" = true
  · simp [hv]
  · simp [hv]

/-- A key is promised to the first word in a subscript. -/
theorem next_promise_eq_containerKey_iff (before : List Token) (t : Token) (rest : List Token) :
    (start.afterAll (t :: rest) before).promise.next = some .containerKey ↔
      Slot.startsSubscript before = true ∧ keySlot (t :: rest) = some .containerKey := by
  unfold Slot.startsSubscript
  rw [Bool.and_eq_true, decide_eq_true_eq]
  rcases List.eq_nil_or_concat before with rfl | ⟨init, u, rfl⟩
  · simp [afterAll, start, Promise.none, Token.endOpening]
  rw [List.concat_eq_append, afterAll_concat, next_promise_after, Slot.openedBraces_concat,
    List.reverse_append, List.reverse_singleton, List.singleton_append, Token.endOpening,
    List.head?_reverse]
  by_cases hopen : u.isDelimiter "\x7b" = true
  · -- nothing is promised past a brace
    have hpast : (start.afterAll (u :: t :: rest) init).promise.afterNext = none :=
      afterNext_promise_afterAll (Token.not_isOperator_of_isDelimiter hopen _)
        (Token.isDelimiter_eq_of_isDelimiter hopen "(") init (t :: rest)
    rw [hpast, Option.none_or, next_promised_eq_containerKey_iff, Slot.opened_afterAll_start,
      if_pos hopen, List.head?_cons, Option.some_inj]
    simp [hopen]
  · have hno := (promised_ne_containerKey (w := start.afterAll (u :: t :: rest) init)
      (fun h => hopen h.1) (t :: rest)).1
    rw [Option.or_eq_some_iff, or_iff_left fun h => hno h.2, if_neg hopen,
      afterNext_promise_eq_containerKey_iff]
    by_cases hmark : u.isOperator Token.evaluationMark = true
    · have hclose : u.isDelimiter "\x7d" = false := by
        simp [Token.isDelimiter, Token.kind_of_isOperator hmark]
      simp [hopen, hmark, hclose, and_assoc]
    · simp [hopen, hmark]

/-! ### A word before a fat comma -/

theorem not_startsList_of_isFatComma {t : Token} (h : t.isFatComma = true) :
    startsList t = false := by
  simp only [Token.isFatComma, Token.isOperator, Bool.and_eq_true, decide_eq_true_eq,
    beq_iff_eq] at h
  simp [startsList, Token.hasSigil, Token.sigil?, Token.isDelimiter, Vocabulary.listProducers,
    Token.fatComma, h.1, h.2]

/-- Of the promises only that of a subscript reaches a word before a fat comma. -/
theorem next_promise_before_fatComma {t comma : Token} (hword : t.isBareword = true)
    (hcomma : comma.isFatComma = true) (before rest : List Token) :
    (start.afterAll (t :: comma :: rest) before).promise.next =
      if Slot.startsSubscript before then some .containerKey else none := by
  have hkey := next_promise_eq_containerKey_iff before t (comma :: rest)
  have hinvoked : isInvoked (some comma) = false := isInvoked_of_isFatComma hcomma
  have hslot : keySlot (t :: comma :: rest) = some .containerKey := by
    simp [keySlot, hword, hinvoked]
  have hcomparator : (start.afterAll (t :: comma :: rest) before).promise.next ≠
      some .orderingComparator := by
    rw [Ne, next_promise_start_iff, comparatorSlot_eq_comparator_iff]
    simp [Token.not_isDelimiter_of_isBareword hword, Token.comparesBefore,
      not_startsList_of_isFatComma hcomma]
  split
  · rename_i hstarts
    exact hkey.mpr ⟨hstarts, hslot⟩
  · rename_i hstarts
    cases hnext : (start.afterAll (t :: comma :: rest) before).promise.next with
    | none => rfl
    | some slot =>
      have hgiven := given_afterAll (w := start) Promise.given_none (t :: comma :: rest) before
        slot (.inl hnext)
      rcases List.mem_pair.mp hgiven with rfl | rfl
      · exact absurd (hkey.mp hnext).1 hstarts
      · exact absurd hnext hcomparator

/-! ### The declaration of a constant -/

/-- After `use constant` stands a word that starts no other declaration. -/
theorem previous_of_endUseConstant {w : SlotWalk} (h : Token.endUseConstant w.before = true) :
    (w.back? 1).any (·.isWord "sub") = false ∧ (w.back? 1).any (·.isWord "package") = false ∧
      (w.back? 1).any (·.isMemberArrow) = false := by
  unfold back?
  rcases hb : w.before with _ | ⟨p, _ | ⟨use, ps⟩⟩
  · simp
  · rw [hb] at h
    cases h
  · rw [hb] at h
    simp only [Token.endUseConstant, Token.isWord, Bool.and_eq_true, decide_eq_true_eq,
      beq_iff_eq] at h
    simp [Token.isWord, Token.isMemberArrow, Token.isOperator, h.1.1, h.1.2]

theorem barewordSlot_eq_constantDeclaration_iff {w : SlotWalk} {word : String}
    {next : Option Token} : w.barewordSlot word next = some .constantDeclaration ↔
      Token.endUseConstant w.before = true ∨
        (next.any (·.isFatComma) = true ∧ w.braces.head? = some .constantList ∧
          (w.back? 1).any (·.isWord "sub") = false ∧ (w.back? 1).any (·.isWord "package") = false ∧
            (w.back? 1).any (·.isMemberArrow) = false) := by
  have other : ∀ {p : Prop} [Decidable p] {x y : Option Slot}, x ≠ some .constantDeclaration →
      y ≠ some .constantDeclaration → (if p then x else y) ≠ some .constantDeclaration := by
    intro p _ x y hx hy
    split
    · exact hx
    · exact hy
  by_cases huse : Token.endUseConstant w.before = true
  · obtain ⟨hsub, hpackage, -⟩ := previous_of_endUseConstant huse
    simp [barewordSlot, huse, hsub, hpackage]
  unfold barewordSlot
  dsimp only
  cases hsub : (w.back? 1).any (·.isWord "sub")
  · cases hpackage : (w.back? 1).any (·.isWord "package")
    · cases harrow : (w.back? 1).any (·.isMemberArrow)
      · by_cases hlist : w.braces.head? = some .constantList ∧ next.any (·.isFatComma) = true
        · simp [huse, hlist]
        · -- the branches below name other slots
          rw [if_neg (by simp), if_neg (by simp), if_neg huse, if_neg (by simp),
            if_neg (by simpa using hlist)]
          refine iff_of_false ?_ ?_
          · repeat' apply other
            all_goals decide
          · rintro (h | ⟨hcomma, hhead, -⟩)
            · exact huse h
            · exact hlist ⟨hhead, hcomma⟩
      · simp [huse]
    · simp [huse]
  · simp [huse]

theorem promised_of_isWord {u : Token} {s : String} (h : u.isWord s = true) (hs : s ≠ "sort")
    (w : SlotWalk) (rest : List Token) : w.promised u rest = .none := by
  have hsort : u.isWord "sort" = false := by
    simp only [Token.isWord, Bool.and_eq_true, decide_eq_true_eq, beq_iff_eq] at h
    simp [Token.isWord, h.2, hs]
  rw [promised, if_neg (by simp [Token.not_isDelimiter_of_isWord h]), if_neg (by simp [hsort])]

/-- Nothing is promised to what follows `use constant`. -/
theorem next_promise_after_useConstant {before : List Token}
    (h : Token.endUseConstant before.reverse = true) (t : Token) (rest : List Token) :
    (start.afterAll (t :: rest) before).promise.next = none := by
  obtain ⟨front, use, constant, rfl, huse, hconstant⟩ := Token.endUseConstant_reverse_iff.mp h
  have hsplit : front ++ [use, constant] = front ++ [use] ++ [constant] := by simp
  rw [hsplit, afterAll_concat, afterAll_concat, promise_after_two,
    promised_of_isWord huse (by decide), promised_of_isWord hconstant (by decide)]
  rfl

/-- Nothing is promised to a key in the list of a `use constant`, which is no subscript. -/
theorem next_promise_in_constantList {before : List Token} (h : Token.InConstantList before)
    {t comma : Token} (hword : t.isBareword = true) (hcomma : comma.isFatComma = true)
    (rest : List Token) : (start.afterAll (t :: comma :: rest) before).promise.next = none := by
  have hstarts : Slot.startsSubscript before = false := by
    rw [← Slot.head?_openedBraces_eq_constantList_iff] at h
    simp [Slot.startsSubscript, h]
  rw [next_promise_before_fatComma hword hcomma, hstarts]
  rfl

end SlotWalk

/-- **Constants.**  Beside the word after `use constant`, a word is declared as a constant if a fat
comma follows it and the innermost brace around it opens the list of a `use constant`, whatever
parentheses and brackets are open there. -/
theorem Slot.infer_eq_constantDeclaration_iff (before : List Token) (t : Token)
    (rest : List Token) :
    (infer (before ++ t :: rest))[before.length]? = some (some .constantDeclaration) ↔
      t.isBareword = true ∧ t.isWord "sort" = false ∧
        (Token.endUseConstant before.reverse = true ∨
          rest.head?.any (·.isFatComma) = true ∧ Token.InConstantList before ∧
            before.getLast?.any (·.isWord "sub") = false ∧
            before.getLast?.any (·.isWord "package") = false ∧
            before.getLast?.any (·.isMemberArrow) = false) := by
  let w := SlotWalk.start.afterAll (t :: rest) before
  have hbareword : w.barewordSlot t.text rest.head? = some .constantDeclaration ↔
      Token.endUseConstant before.reverse = true ∨
        rest.head?.any (·.isFatComma) = true ∧ Token.InConstantList before ∧
          before.getLast?.any (·.isWord "sub") = false ∧
          before.getLast?.any (·.isWord "package") = false ∧
          before.getLast?.any (·.isMemberArrow) = false := by
    rw [SlotWalk.barewordSlot_eq_constantDeclaration_iff, SlotWalk.before_afterAll_start,
      SlotWalk.back?_one_afterAll_start, braces_afterAll_start,
      head?_openedBraces_eq_constantList_iff]
  rw [infer, SlotWalk.getElem?_slots, Option.some_inj]
  constructor
  · intro h
    obtain ⟨hsort, hword, hslot⟩ := SlotWalk.barewordSlot_of_slot h (by decide) (by decide)
    exact ⟨hword, hsort, hbareword.mp hslot⟩
  · rintro ⟨hword, hsort, hplace⟩
    -- nothing is promised to the word, so its neighbours decide
    have hpromise : w.promise.next = none := by
      rcases hplace with huse | ⟨hcomma, hlist, -⟩
      · exact SlotWalk.next_promise_after_useConstant huse t rest
      · rcases rest with _ | ⟨comma, rest⟩
        · cases hcomma
        · exact SlotWalk.next_promise_in_constantList hlist hword hcomma rest
    show (w.promise.next.or (w.ownSlot t rest.head?)) = _
    rw [hpromise, Option.none_or, SlotWalk.ownSlot_of_isBareword hword hsort]
    exact hbareword.mpr hplace

/-- `use constant { A => [B => 1] }; B;` -/
def constantOfList : List Token :=
  [⟨.identifier, "use", ⟨1, 1⟩⟩, ⟨.identifier, "constant", ⟨1, 5⟩⟩, ⟨.delimiter, "\x7b", ⟨1, 14⟩⟩,
    ⟨.identifier, "A", ⟨1, 16⟩⟩, ⟨.operator, "=>", ⟨1, 18⟩⟩, ⟨.delimiter, "[", ⟨1, 21⟩⟩,
    ⟨.identifier, "B", ⟨1, 22⟩⟩, ⟨.operator, "=>", ⟨1, 24⟩⟩, ⟨.number, "1", ⟨1, 27⟩⟩,
    ⟨.delimiter, "]", ⟨1, 28⟩⟩, ⟨.delimiter, "\x7d", ⟨1, 30⟩⟩, ⟨.punctuation, ";", ⟨1, 31⟩⟩,
    ⟨.identifier, "B", ⟨1, 33⟩⟩, ⟨.punctuation, ";", ⟨1, 34⟩⟩]

/-- The key right after an opening bracket, in the value of a constant, is declared as a constant
itself, and a later word of its name is taken for that constant. -/
theorem CodeUnit.constant_in_list_declared :
    (constantOfList.take 6).getLast?.any (·.isDelimiter "[") = true ∧
    Slot.infer constantOfList = [none, none, none, some .constantDeclaration, none, none,
      some .constantDeclaration, none, none, none, none, none, some .statementCall, none] ∧
    ((CodeUnit.mk "u" (SlottedToken.infer constantOfList) []).report
      .strict).classifications.map (fun c => (c.name, c.category)) =
        [("A", .constantDeclaration), ("B", .constantDeclaration), ("B", .constantReference)] := by
  refine ⟨by decide, by decide, ?_⟩
  show ((Analyzer.start _ _).run "u" .strict).classifications.map _ = _
  rw [Analyzer.classifications_run]
  decide

-- between braces of its own the key stays a key
example : Slot.infer [⟨.identifier, "use", ⟨1, 1⟩⟩, ⟨.identifier, "constant", ⟨1, 5⟩⟩,
    ⟨.delimiter, "\x7b", ⟨1, 14⟩⟩, ⟨.identifier, "A", ⟨1, 16⟩⟩, ⟨.operator, "=>", ⟨1, 18⟩⟩,
    ⟨.delimiter, "\x7b", ⟨1, 21⟩⟩, ⟨.identifier, "B", ⟨1, 22⟩⟩, ⟨.operator, "=>", ⟨1, 24⟩⟩] =
    [none, none, none, some .constantDeclaration, none, none, some .containerKey, none] := by
  decide

end WordRole
