import WordRole.CodeUnit
import WordRole.Proofs.Analysis.Step
import WordRole.Proofs.Report.Outcome
import WordRole.Proofs.Slot.Walk

/-!
# Where comparators are found

A token gets the slot of a comparator just when a `sort` stands before it, with or without a
parenthesis between, and it is a brace or comes before a list (`SlotWalk.slot_eq_comparator_iff`).
Nothing is asked of what stands before the `sort`, and little of the token itself, so that

* a semicolon, a comma or an arrow before a list is taken for a comparator;
* a method or a key named `sort` has what follows it taken for one;
* a unit is given up for either (`CodeUnit.comparator_iff`).
-/

namespace WordRole

namespace Token

/-- Whether the tokens before a place, nearest first, end in `sort`, or in `sort` and an opening
parenthesis. -/
def endSort : List Token → Bool
  | [] => false
  | [t] => t.isWord "sort"
  | t :: u :: _ => t.isWord "sort" || (t.isDelimiter "(" && u.isWord "sort")

/-- whether a token that is no delimiter is taken for a comparator before another one -/
def comparesBefore (t : Token) (next : Option Token) : Bool :=
  !t.hasSigil ['@', '%'] && !(t.isBareword && Vocabulary.isReserved t.text) &&
    t.kind != .delimiter && next.any SlotWalk.startsList

/-- whether a token joins or parts operands: a punctuation mark, a fat comma or an arrow -/
def isSeparator (t : Token) : Bool :=
  t.kind = .punctuation || t.isFatComma || t.isMemberArrow

theorem kind_of_isWord {t : Token} {s : String} (h : t.isWord s = true) : t.kind = .identifier := by
  simp only [Token.isWord, Bool.and_eq_true, decide_eq_true_eq] at h
  exact h.1

theorem kind_of_isDelimiter {t : Token} {s : String} (h : t.isDelimiter s = true) :
    t.kind = .delimiter := by
  simp only [Token.isDelimiter, Bool.and_eq_true, decide_eq_true_eq] at h
  exact h.1

theorem kind_of_isOperator {t : Token} {s : String} (h : t.isOperator s = true) :
    t.kind = .operator := by
  simp only [Token.isOperator, Bool.and_eq_true, decide_eq_true_eq] at h
  exact h.1

theorem not_isDelimiter_of_isWord {t : Token} {s : String} (h : t.isWord s = true) (d : String) :
    t.isDelimiter d = false := by
  simp [Token.isDelimiter, Token.kind_of_isWord h]

theorem comparesBefore_of_isSeparator {t : Token} (h : t.isSeparator = true)
    (next : Option Token) : t.comparesBefore next = next.any SlotWalk.startsList := by
  have hk : t.kind = .punctuation ∨ t.kind = .operator := by
    simp only [isSeparator, isFatComma, isMemberArrow, isOperator, Bool.or_eq_true,
      Bool.and_eq_true, decide_eq_true_eq] at h
    rcases h with (h | ⟨h, -⟩) | ⟨h, -⟩
    · exact .inl h
    · exact .inr h
    · exact .inr h
  rcases hk with hk | hk <;> simp [comparesBefore, hasSigil, sigil?, isBareword, hk]

theorem not_isDelimiter_of_isSeparator {t : Token} (h : t.isSeparator = true) (s : String) :
    t.isDelimiter s = false := by
  cases hk : t.kind <;>
    simp_all [isSeparator, isFatComma, isMemberArrow, isOperator, isDelimiter]

end Token

namespace SlotWalk

/-! ### The promise of a `sort` -/

theorem comparatorSlot_eq_comparator_iff {t : Token} {rest : List Token} :
    comparatorSlot (t :: rest) = some .orderingComparator ↔
      t.isDelimiter "\x7b" = true ∨ t.comparesBefore rest.head? = true := by
  simp only [comparatorSlot, Token.comparesBefore]
  by_cases hd : t.isDelimiter "\x7b" = true
  · simp [hd]
  · rw [if_neg hd]
    split
    · rename_i h
      simp only [Bool.or_eq_true, decide_eq_true_eq] at h
      rcases h with (h | h) | h <;> simp [h, hd]
    · rename_i h
      simp only [Bool.or_eq_true, decide_eq_true_eq, not_or] at h
      obtain ⟨⟨hs, hr⟩, hk⟩ := h
      have hr : (t.isBareword && Vocabulary.isReserved t.text) = false := by simpa using hr
      simp [hd, hs, hr, hk]

theorem keySlot_ne_comparator (ts : List Token) : keySlot ts ≠ some .orderingComparator := by
  unfold keySlot
  split
  · simp
  · split <;> simp

theorem subscriptPromise_ne_comparator (rest : List Token) :
    (subscriptPromise rest).next ≠ some .orderingComparator ∧
    (subscriptPromise rest).afterNext ≠ some .orderingComparator := by
  unfold subscriptPromise Promise.skipping
  split
  · simp [Promise.none]
  · split <;> simp [keySlot_ne_comparator]

theorem promised_of_sort {u : Token} (h : u.isWord "sort" = true) (w : SlotWalk)
    (rest : List Token) : w.promised u rest = sortPromise rest := by
  unfold promised
  rw [if_neg (by simp [Token.not_isDelimiter_of_isWord h]), if_pos h]

/-- A token other than a `sort` promises no comparator. -/
theorem promised_of_ne_sort {u : Token} (h : u.isWord "sort" = false) (w : SlotWalk)
    (rest : List Token) :
    (w.promised u rest).next ≠ some .orderingComparator ∧
    (w.promised u rest).afterNext ≠ some .orderingComparator := by
  unfold promised
  split
  · split
    · exact subscriptPromise_ne_comparator rest
    · simp [Promise.none]
  · simp [h, Promise.none]

theorem next_promised_iff (w : SlotWalk) (u t : Token) (rest : List Token) :
    (w.promised u (t :: rest)).next = some .orderingComparator ↔
      u.isWord "sort" = true ∧ comparatorSlot (t :: rest) = some .orderingComparator := by
  cases h : u.isWord "sort"
  · simp [(promised_of_ne_sort h w (t :: rest)).1]
  · rw [promised_of_sort h, sortPromise, Promise.skipping_cons]
    by_cases hp : t.isDelimiter "(" = true
    · -- the promise goes past a parenthesis, which is no comparator itself
      have hb : t.isDelimiter "\x7b" = false := by
        simp only [Token.isDelimiter, Bool.and_eq_true, decide_eq_true_eq, beq_iff_eq] at hp
        simp [Token.isDelimiter, hp.2]
      rw [if_pos hp, comparatorSlot_eq_comparator_iff]
      simp [hb, Token.comparesBefore, Token.kind_of_isDelimiter hp]
    · rw [if_neg hp]
      simp

theorem afterNext_promised_iff (w : SlotWalk) (v u t : Token) (rest : List Token) :
    (w.promised v (u :: t :: rest)).afterNext = some .orderingComparator ↔
      v.isWord "sort" = true ∧ u.isDelimiter "(" = true ∧
        comparatorSlot (t :: rest) = some .orderingComparator := by
  cases h : v.isWord "sort"
  · simp [(promised_of_ne_sort h w (u :: t :: rest)).2]
  · rw [promised_of_sort h, sortPromise, Promise.skipping_cons]
    by_cases hp : u.isDelimiter "(" = true <;> simp [hp]

/-- What goes past a token goes past a mark or a parenthesis, never past a word. -/
theorem afterNext_promised_of_sort {u : Token} (h : u.isWord "sort" = true) (w : SlotWalk)
    (v : Token) (rest : List Token) : (w.promised v (u :: rest)).afterNext = none := by
  have ho : u.isOperator Token.evaluationMark = false := by
    simp [Token.isOperator, Token.kind_of_isWord h]
  unfold promised subscriptPromise sortPromise
  rw [Promise.skipping_cons, Promise.skipping_cons, Token.not_isDelimiter_of_isWord h, ho]
  split
  · split <;> rfl
  · split <;> rfl

/-! ### The slot of a comparator -/

theorem barewordSlot_ne_comparator (w : SlotWalk) (word : String) (next : Option Token) :
    w.barewordSlot word next ≠ some .orderingComparator := by
  have ite_ne : ∀ {p : Prop} [Decidable p] {x y : Option Slot}, x ≠ some .orderingComparator →
      y ≠ some .orderingComparator → (if p then x else y) ≠ some .orderingComparator := by
    intro p _ x y hx hy
    split
    · exact hx
    · exact hy
  unfold barewordSlot
  dsimp only
  -- every branch names another slot
  repeat' apply ite_ne
  all_goals decide

theorem ownSlot_ne_comparator (w : SlotWalk) (t : Token) (next : Option Token) :
    w.ownSlot t next ≠ some .orderingComparator := by
  unfold ownSlot
  split
  · simp
  · split
    · split <;> simp
    · split
      · exact w.barewordSlot_ne_comparator t.text next
      · simp

theorem next_promise_start_iff (before : List Token) (t : Token) (rest : List Token) :
    (start.afterAll (t :: rest) before).promise.next = some .orderingComparator ↔
      Token.endSort before.reverse = true ∧
        comparatorSlot (t :: rest) = some .orderingComparator := by
  rcases List.eq_nil_or_concat before with rfl | ⟨init, u, rfl⟩
  · simp [afterAll, start, Promise.none, Token.endSort]
  · rw [List.concat_eq_append, afterAll_concat]
    rcases List.eq_nil_or_concat init with rfl | ⟨first, v, rfl⟩
    · rw [next_promise_after]
      simpa [afterAll, start, Promise.none, Token.endSort] using next_promised_iff _ u t rest
    · rw [List.concat_eq_append, afterAll_concat, promise_after_two]
      have hu := next_promised_iff ((start.afterAll (v :: u :: t :: rest) first).after v
        (u :: t :: rest)) u t rest
      have hv := afterNext_promised_iff (start.afterAll (v :: u :: t :: rest) first) v u t rest
      simp only [List.reverse_append, List.reverse_cons, List.reverse_nil, List.nil_append,
        List.cons_append, Token.endSort, Bool.or_eq_true, Bool.and_eq_true]
      cases hs : u.isWord "sort"
      · -- only the token before `u` can have promised it
        have hn := (promised_of_ne_sort hs ((start.afterAll (v :: u :: t :: rest) first).after v
          (u :: t :: rest)) (t :: rest)).1
        rw [Option.or_eq_some_iff, hv]
        simp [hn, and_assoc, and_left_comm]
      · rw [afterNext_promised_of_sort hs, Option.none_or, hu]
        simp [hs]

theorem slot_eq_comparator_iff (before : List Token) (t : Token) (rest : List Token) :
    (Slot.infer (before ++ t :: rest))[before.length]? = some (some .orderingComparator) ↔
      Token.endSort before.reverse = true ∧
        (t.isDelimiter "\x7b" = true ∨ t.comparesBefore rest.head? = true) := by
  rw [← comparatorSlot_eq_comparator_iff, ← next_promise_start_iff, Slot.infer, getElem?_slots,
    Option.some_inj, slot, Option.or_eq_some_iff]
  simp [ownSlot_ne_comparator]

end SlotWalk

/-! ### Units that are given up -/

theorem SlottedToken.exists_mem_infer_iff {ts : List Token} {p : SlottedToken → Prop} :
    (∃ t ∈ SlottedToken.infer ts, p t) ↔
      ∃ before t rest, ts = before ++ t :: rest ∧
        ∃ s, (Slot.infer ts)[before.length]? = some s ∧ p ⟨t, s⟩ := by
  constructor
  · rintro ⟨u, hu, hp⟩
    obtain ⟨i, hi⟩ := List.getElem?_of_mem hu
    rw [SlottedToken.infer, List.getElem?_zipWith_eq_some] at hi
    obtain ⟨t, s, ht, hs, rfl⟩ := hi
    obtain ⟨hlt, rfl⟩ := List.getElem?_eq_some_iff.mp ht
    refine ⟨ts.take i, ts[i], ts.drop (i + 1), by simp, s, ?_, hp⟩
    rwa [List.length_take_of_le (Nat.le_of_lt hlt)]
  · rintro ⟨before, t, rest, rfl, s, hs, hp⟩
    refine ⟨⟨t, s⟩, List.mem_of_getElem? (i := before.length) ?_, hp⟩
    rw [SlottedToken.infer, List.getElem?_zipWith_eq_some]
    exact ⟨t, s, by simp, hs, rfl⟩

theorem CodeUnit.outcome_eq_aborted_iff (u : CodeUnit) (mode : Mode) :
    (u.report mode).outcome = .aborted ↔ ∃ t ∈ u.tokens, t.isFault = true := by
  have hrun : u.report mode =
      ((Analyzer.start u.tokens u.notices).pass none u.tokens).2.finish u.name mode :=
    Analyzer.run_eq_finish_pass u.tokens u.notices u.name mode
  rw [hrun, ← Analyzer.isSome_abort_pass_iff (a := Analyzer.start u.tokens u.notices) rfl none]
  exact Findings.outcome_eq_aborted_iff

/-- **Comparators.**  Nothing is asked of the token before the `sort`, and of a separator after it
only that a list follows; a unit is given up where the comparator is neither a brace nor a name. -/
theorem CodeUnit.comparator_iff (ts : List Token) :
    (∀ before t rest, ts = before ++ t :: rest →
      ((Slot.infer ts)[before.length]? = some (some .orderingComparator) ↔
        Token.endSort before.reverse = true ∧
          (t.isDelimiter "\x7b" = true ∨ t.comparesBefore rest.head? = true)) ∧
      (t.isSeparator = true →
        ((Slot.infer ts)[before.length]? = some (some .orderingComparator) ↔
          Token.endSort before.reverse = true ∧ rest.head?.any SlotWalk.startsList = true))) ∧
    ∀ unit notices mode,
      ((CodeUnit.mk unit (SlottedToken.infer ts) notices).report mode).outcome = .aborted ↔
        ∃ before t rest, ts = before ++ t :: rest ∧ Token.endSort before.reverse = true ∧
          t.comparesBefore rest.head? = true ∧
          t.isScalarVariable = false ∧ t.isBareword = false := by
  refine ⟨?_, fun unit notices mode => ?_⟩
  · rintro before t rest rfl
    refine ⟨SlotWalk.slot_eq_comparator_iff before t rest, fun h => ?_⟩
    rw [SlotWalk.slot_eq_comparator_iff, Token.not_isDelimiter_of_isSeparator h,
      Token.comparesBefore_of_isSeparator h]
    simp
  · rw [CodeUnit.outcome_eq_aborted_iff, SlottedToken.exists_mem_infer_iff]
    refine exists_congr fun before => exists_congr fun t => exists_congr fun rest =>
      and_congr_right fun hts => ?_
    subst hts
    constructor
    · rintro ⟨s, hs, hf⟩
      simp only [SlottedToken.isFault, Bool.and_eq_true, decide_eq_true_eq, Bool.not_eq_true',
        Bool.or_eq_false_iff] at hf
      obtain ⟨rfl, ⟨hd, hv⟩, hb⟩ := hf
      obtain ⟨hsort, hc⟩ := (SlotWalk.slot_eq_comparator_iff before t rest).mp hs
      exact ⟨hsort, hc.resolve_left (by simp [hd]), hv, hb⟩
    · rintro ⟨hsort, hc, hv, hb⟩
      -- what compares before a list is no delimiter
      have hd : t.isDelimiter "\x7b" = false := by
        cases hk : t.isDelimiter "\x7b"
        · rfl
        · simp [Token.comparesBefore, Token.kind_of_isDelimiter hk] at hc
      exact ⟨_, (SlotWalk.slot_eq_comparator_iff before t rest).mpr ⟨hsort, .inr hc⟩,
        by simp [SlottedToken.isFault, hd, hv, hb]⟩

/-- `sort ; @x` -/
def sortBeforeSemicolon : List Token :=
  [⟨.identifier, "sort", ⟨1, 1⟩⟩, ⟨.punctuation, ";", ⟨1, 5⟩⟩, ⟨.identifier, "@x", ⟨1, 7⟩⟩]

/-- `$o->sort(\@x);` -/
def sortMethod : List Token :=
  [⟨.identifier, "$o", ⟨1, 1⟩⟩, ⟨.operator, "->", ⟨1, 3⟩⟩, ⟨.identifier, "sort", ⟨1, 5⟩⟩,
    ⟨.delimiter, "(", ⟨1, 9⟩⟩, ⟨.operator, "\\", ⟨1, 10⟩⟩, ⟨.identifier, "@x", ⟨1, 11⟩⟩,
    ⟨.delimiter, ")", ⟨1, 13⟩⟩, ⟨.punctuation, ";", ⟨1, 14⟩⟩]

/-- A semicolon is taken for a comparator, and so is what a method named `sort` is given, for which
the unit is given up. -/
theorem CodeUnit.comparator_of_semicolon_and_method :
    Slot.infer sortBeforeSemicolon = [none, some .orderingComparator, none] ∧
    (Slot.infer sortMethod)[4]? = some (some .orderingComparator) ∧
    ((CodeUnit.mk "u" (SlottedToken.infer sortMethod) []).report .strict).outcome = .aborted := by
  refine ⟨by decide, by decide, ?_⟩
  rw [CodeUnit.outcome_eq_aborted_iff]
  decide

end WordRole
