import WordRole.Proofs.Slot.Fitting
import WordRole.Proofs.Slot.Sight

/-!
# Slots after an edit

A word may be written in another way so that it loses its slot, or keeps it, and all other tokens
keep theirs:

* `SlotWalk.infer_separated`: a word before an arrow with a namespace separator after it;
* `SlotWalk.infer_called`: a value after a fat comma with a pair of parentheses after it;
* `SlotWalk.infer_quoted`: a literal in the place of a value.

All three are cases of `SlotWalk.infer_replaced`, by what the walk sees around the word.
-/

namespace WordRole

/-! ### What is promised -/

/-- the slots that are promised, of keys and of comparators -/
def Slot.promisable : List Slot := [.containerKey, .orderingComparator]

namespace Promise

/-- Whether only promisable slots are promised. -/
def Given (p : Promise) : Prop :=
  ∀ slot, p.next = some slot ∨ p.afterNext = some slot → slot ∈ Slot.promisable

theorem given_none : none.Given := by
  rintro slot (h | h) <;> cases h

theorem Given.later {p : Promise} (h : p.Given) : p.later.Given := by
  rintro slot (hslot | hslot)
  · exact h slot (.inr hslot)
  · cases hslot

theorem Given.or {p q : Promise} (hp : p.Given) (hq : q.Given) : (p.or q).Given := by
  rintro slot (hslot | hslot)
  · rcases Option.or_eq_some_iff.mp hslot with h | ⟨-, h⟩
    · exact hp slot (.inl h)
    · exact hq slot (.inl h)
  · rcases Option.or_eq_some_iff.mp hslot with h | ⟨-, h⟩
    · exact hp slot (.inr h)
    · exact hq slot (.inr h)

theorem given_skipping (skip : Token → Bool) {find : List Token → Option Slot}
    (hfind : ∀ ts slot, find ts = some slot → slot ∈ Slot.promisable) (rest : List Token) :
    (skipping skip find rest).Given := by
  cases rest with
  | nil => exact given_none
  | cons t ts =>
    rw [skipping_cons]
    split
    · rintro slot (h | h)
      · cases h
      · exact hfind _ slot h
    · rintro slot (h | h)
      · exact hfind _ slot h
      · cases h

end Promise

namespace SlotWalk

theorem given_promised (w : SlotWalk) (t : Token) (rest : List Token) :
    (w.promised t rest).Given := by
  have hkey : ∀ ts slot, keySlot ts = some slot → slot ∈ Slot.promisable := by
    intro ts slot h
    unfold keySlot at h
    split at h
    · cases h
    · split at h <;> cases h
      decide
  have hcomparator : ∀ ts slot, comparatorSlot ts = some slot → slot ∈ Slot.promisable := by
    intro ts slot h
    unfold comparatorSlot at h
    split at h
    · cases h
    · repeat' split at h
      all_goals cases h
      all_goals decide
  unfold promised
  split
  · split
    · exact Promise.given_skipping _ hkey rest
    · exact Promise.given_none
  · split
    · exact Promise.given_skipping _ hcomparator rest
    · exact Promise.given_none

theorem given_afterAll {w : SlotWalk} (h : w.promise.Given) (rest before : List Token) :
    (w.afterAll rest before).promise.Given := by
  induction before generalizing w with
  | nil => exact h
  | cons t before ih =>
    refine ih ?_
    rw [promise_after]
    exact h.later.or (w.given_promised t _)

/-- Nothing is promised past a token that is neither a mark nor an opening parenthesis. -/
theorem afterNext_promise_afterAll {t : Token} (hmark : t.isOperator Token.evaluationMark = false)
    (hparenthesis : t.isDelimiter "(" = false) (before rest : List Token) :
    (start.afterAll (t :: rest) before).promise.afterNext = none := by
  rcases List.eq_nil_or_concat before with rfl | ⟨init, u, rfl⟩
  · rfl
  · rw [List.concat_eq_append, afterAll_concat, afterNext_promise_after]
    unfold promised subscriptPromise sortPromise
    rw [Promise.skipping_cons, Promise.skipping_cons, hmark, hparenthesis]
    split
    · split <;> rfl
    · split <;> rfl

theorem before_afterAll (w : SlotWalk) (rest ts : List Token) :
    (w.afterAll rest ts).before = ts.reverse ++ w.before := by
  induction ts generalizing w with
  | nil => rfl
  | cons t ts ih =>
    rw [afterAll, ih, before_after, List.reverse_cons, List.append_assoc]
    rfl

end SlotWalk

/-! ### Tokens that promise nothing -/

namespace Token

/-- A token that opens and closes no block and is no `sort`. -/
structure IsPlain (t : Token) : Prop where
  opening : t.isDelimiter "\x7b" = false
  closing : t.isDelimiter "\x7d" = false
  sort : t.isWord "sort" = false

theorem isPlain_of_kind {t : Token} (hword : t.kind ≠ .identifier)
    (hdelimiter : t.kind ≠ .delimiter) : t.IsPlain :=
  ⟨by simp [isDelimiter, hdelimiter], by simp [isDelimiter, hdelimiter], by simp [isWord, hword]⟩

/-- A delimiter other than a brace opens and closes no block. -/
theorem isPlain_of_isDelimiter {t : Token} {s : String} (h : t.isDelimiter s = true)
    (hopen : s ≠ "\x7b") (hclose : s ≠ "\x7d") : t.IsPlain := by
  simp only [isDelimiter, Bool.and_eq_true, decide_eq_true_eq, beq_iff_eq] at h
  obtain ⟨hk, rfl⟩ := h
  exact ⟨by simp [isDelimiter, hopen], by simp [isDelimiter, hclose], by simp [isWord, hk]⟩

theorem isPlain_of_isBareword {t : Token} (hb : t.isBareword = true)
    (hsort : t.isWord "sort" = false) : t.IsPlain :=
  ⟨not_isDelimiter_of_isBareword hb _, not_isDelimiter_of_isBareword hb _, hsort⟩

theorem kind_of_isNamespaceSeparator {t : Token} (h : t.isNamespaceSeparator = true) :
    t.kind = .punctuation := by
  simp only [isNamespaceSeparator, isPunctuation, Bool.and_eq_true, decide_eq_true_eq] at h
  exact h.1

theorem not_isPunctuation_of_isNamespaceSeparator {t : Token}
    (h : t.isNamespaceSeparator = true) {s : String} (hs : s ≠ namespaceSeparator) :
    t.isPunctuation s = false := by
  simp only [isNamespaceSeparator, isPunctuation, Bool.and_eq_true, beq_iff_eq] at h
  simp [isPunctuation, h.2, hs.symm]

end Token

namespace SlotWalk

theorem after_of_isPlain {t : Token} (h : t.IsPlain) (w : SlotWalk) (rest : List Token) :
    w.after t rest =
      ⟨t :: w.before, w.braces, t.isPunctuation ";", none, w.promise.later⟩ := by
  unfold after
  simp only [h.opening, h.closing, h.sort, Bool.false_eq_true, if_false]

theorem ownSlot_of_isBareword {t : Token} (hb : t.isBareword = true)
    (hsort : t.isWord "sort" = false) (w : SlotWalk) (next : Option Token) :
    w.ownSlot t next = w.barewordSlot t.text next := by
  rw [ownSlot, if_neg (by simp [Token.kind_of_isBareword hb, hsort]),
    if_neg (by simp [Token.not_isScalarVariable_of_isBareword hb]), if_pos hb]

theorem slot_of_isBareword {w : SlotWalk} (hpromise : w.promise = Promise.none) {t : Token}
    (hb : t.isBareword = true) (hsort : t.isWord "sort" = false) (rest : List Token) :
    w.slot t rest = w.barewordSlot t.text rest.head? := by
  rw [slot, hpromise, ownSlot_of_isBareword hb hsort]
  rfl

/-- A token that is no identifier has no slot but by a promise. -/
theorem slot_of_kind {t : Token} (h : t.kind ≠ .identifier) (w : SlotWalk) (rest : List Token) :
    w.slot t rest = w.promise.next := by
  have hown : w.ownSlot t rest.head? = none := if_pos (by simp [h])
  rw [slot, hown, Option.or_none]

/-! ### An edit -/

theorem infer_append (before : List Token) (t : Token) (rest : List Token) :
    SlottedToken.infer (before ++ t :: rest) = start.slotted (t :: rest) before ++
      ⟨t, (start.afterAll (t :: rest) before).slot t rest⟩ ::
        ((start.afterAll (t :: rest) before).after t rest).slotted [] rest := by
  rw [infer_eq_slotted, slotted_append, List.append_nil, slotted, List.append_nil]

/-- Where a token is replaced by others, those around it keep their slots if the ones before see no
difference and the one after hides it. -/
theorem infer_replaced {before rest : List Token} {t : Token} (us vs : List Token)
    (mid : List SlottedToken)
    (hslots : start.slotted (us ++ rest) before = start.slotted (t :: rest) before)
    (hwalk : start.afterAll (us ++ rest) before = start.afterAll (t :: rest) before)
    (hmid : (start.afterAll (t :: rest) before).slotted rest us = mid)
    (hbehind : (start.afterAll (t :: rest) before).afterAll rest us =
      ((start.afterAll (t :: rest) before).after t rest).withBefore vs)
    (hrest : ∀ n ∈ rest.head?, n.Hides) :
    SlottedToken.infer (before ++ (us ++ rest)) = start.slotted (t :: rest) before ++
      (mid ++ ((start.afterAll (t :: rest) before).after t rest).slotted [] rest) := by
  rw [infer_eq_slotted, slotted_append, List.append_nil, hslots, hwalk, slotted_append,
    List.append_nil, hbehind, slotted_of_hides hrest, hmid]

/-! ### The neighbours of a word with a slot -/

/-- A word whose slot is never promised has it by its neighbours. -/
theorem barewordSlot_of_slot {before rest : List Token} {t : Token} {slot : Slot}
    (h : (start.afterAll (t :: rest) before).slot t rest = some slot)
    (hpromise : slot ∉ Slot.promisable) (hscalar : slot ≠ .lexicalHandleDeclaration) :
    t.isWord "sort" = false ∧ t.isBareword = true ∧
      (start.afterAll (t :: rest) before).barewordSlot t.text rest.head? = some slot := by
  have hgiven := given_afterAll (w := start) Promise.given_none (t :: rest) before
  rcases Option.or_eq_some_iff.mp h with h | ⟨-, h⟩
  · exact absurd (hgiven slot (.inl h)) hpromise
  · unfold ownSlot at h
    split at h
    · cases h
    · rename_i hword
      split at h
      · split at h <;> cases h
        exact absurd rfl hscalar
      · split at h
        · rename_i hb
          exact ⟨(Bool.or_eq_false_iff.mp (Bool.eq_false_iff.mpr hword)).2, hb, h⟩
        · cases h

/-- An arrow or a namespace separator. -/
theorem invokes_cases {n : Token} (h : isInvoked (some n) = true) :
    n.kind = .operator ∧ n.text = Token.memberArrow ∨
      n.kind = .punctuation ∧ n.text = Token.namespaceSeparator := by
  simpa [isInvoked, Token.isMemberArrow, Token.isNamespaceSeparator, Token.isOperator,
    Token.isPunctuation] using h

theorem not_startsList_of_isInvoked {n : Token} (h : isInvoked (some n) = true) :
    startsList n = false := by
  rcases invokes_cases h with ⟨hk, ht⟩ | ⟨hk, ht⟩ <;>
    simp [startsList, Token.hasSigil, Token.sigil?, Token.isDelimiter, Vocabulary.listProducers,
      Token.memberArrow, Token.namespaceSeparator, hk, ht]

/-- The slot of a word is the same before every token that it may be invoked with. -/
theorem barewordSlot_of_isInvoked {n n' : Token} (h : isInvoked (some n) = true)
    (h' : isInvoked (some n') = true) (w : SlotWalk) (word : String) :
    w.barewordSlot word (some n') = w.barewordSlot word (some n) := by
  have hno : ∀ {n : Token}, isInvoked (some n) = true →
      n.isFatComma = false ∧ n.isDelimiter "\x7b" = false := by
    intro n h
    rcases invokes_cases h with ⟨hk, ht⟩ | ⟨hk, ht⟩ <;>
      simp [Token.isFatComma, Token.isOperator, Token.isDelimiter, Token.fatComma,
        Token.memberArrow, hk, ht]
  unfold barewordSlot
  simp only [Option.any_some, (hno h).1, (hno h).2, (hno h').1, (hno h').2, h, h']
  -- past the test for an invocation only reserved words come, which have no slot
  cases Vocabulary.isReserved word <;> simp

theorem slot_of_isInvoked {n n' : Token} (h : isInvoked (some n) = true)
    (h' : isInvoked (some n') = true) (w : SlotWalk) (t : Token) (us vs : List Token) :
    w.slot t (n' :: vs) = w.slot t (n :: us) := by
  simp only [slot, ownSlot, List.head?_cons, barewordSlot_of_isInvoked h h']

/-- A value stands between a fat comma and the end of a phrase. -/
theorem of_barewordSlot_eq_pairValue {w : SlotWalk} {word : String} {next : Option Token}
    (h : w.barewordSlot word next = some .pairValue) :
    (w.back? 1).any (·.isFatComma) = true ∧ Vocabulary.isReserved word = false ∧
      endsValue next = true := by
  have other : ∀ {p : Prop} [Decidable p] {x y : Option Slot}, x ≠ some .pairValue →
      (if p then x else y) = some .pairValue → ¬p ∧ y = some .pairValue := by
    intro p _ x y hx h
    split at h
    · exact absurd h hx
    · exact ⟨‹¬p›, h⟩
  unfold barewordSlot at h
  -- one branch after the other, all of which give another slot
  obtain ⟨-, h⟩ := other (by decide) h
  obtain ⟨-, h⟩ := other (by decide) h
  obtain ⟨-, h⟩ := other (by decide) h
  obtain ⟨-, h⟩ := other (by decide) h
  obtain ⟨-, h⟩ := other (by decide) h
  obtain ⟨-, h⟩ := other (by decide) h
  obtain ⟨-, h⟩ := other (by decide) h
  obtain ⟨-, h⟩ := other (by decide) h
  obtain ⟨hreserved, h⟩ := other (by decide) h
  obtain ⟨-, h⟩ := other (by decide) h
  split at h
  · rename_i hvalue
    obtain ⟨hcomma, hend⟩ := Bool.and_eq_true_iff.mp hvalue
    exact ⟨hcomma, Bool.eq_false_iff.mpr hreserved, hend⟩
  · obtain ⟨-, h⟩ := other (by decide) h
    cases h

/-- A word between a fat comma and an opening parenthesis has no slot. -/
theorem barewordSlot_of_call {w : SlotWalk} {v opening : Token} {vs : List Token}
    (hbefore : w.before = v :: vs) (hcomma : v.isFatComma = true)
    (hopening : opening.isDelimiter "(" = true) {word : String}
    (hreserved : Vocabulary.isReserved word = false) :
    w.barewordSlot word (some opening) = none := by
  obtain ⟨before, braces, atStart, closed, promise⟩ := w
  obtain rfl : before = v :: vs := hbefore
  obtain ⟨kind, text, position⟩ := v
  obtain ⟨kind', text', position'⟩ := opening
  simp only [Token.isFatComma, Token.isOperator, Token.isDelimiter, Token.fatComma,
    Bool.and_eq_true, decide_eq_true_eq, beq_iff_eq] at hcomma hopening
  obtain ⟨rfl, rfl⟩ := hcomma
  obtain ⟨rfl, rfl⟩ := hopening
  have hconstant : Token.endUseConstant (⟨.operator, "=>", position⟩ :: vs) = false := by
    cases vs <;> simp [Token.endUseConstant, Token.isWord]
  simp [barewordSlot, isHandle, caller?, back?, hconstant, hreserved, isInvoked, endsValue,
    endsStatementCall, Token.isWord, Token.isMemberArrow, Token.isNamespaceSeparator,
    Token.isFatComma, Token.isOperator, Token.isPunctuation, Token.isDelimiter, Token.sigil?,
    Token.memberArrow]

/-! ### The token after the edit -/

theorem hides_of_isMemberArrow {n : Token} (h : n.isMemberArrow = true) : n.Hides := by
  obtain ⟨kind, text, position⟩ := n
  simp only [Token.isMemberArrow, Token.isOperator, Bool.and_eq_true, decide_eq_true_eq,
    beq_iff_eq] at h
  obtain ⟨rfl, rfl⟩ := h
  exact ⟨by simp, by simp [Token.isDelimiter], by simp [Token.isDelimiter],
    by simp [Vocabulary.variableDeclarators, Token.memberArrow]⟩

theorem hides_of_endsValue {next : Option Token} (h : endsValue next = true) :
    ∀ n ∈ next, n.Hides := by
  rintro n rfl
  obtain ⟨kind, text, position⟩ := n
  simp only [endsValue, Option.all_some, Token.isPunctuation, Token.isDelimiter, Bool.or_eq_true,
    Bool.and_eq_true, decide_eq_true_eq, beq_iff_eq] at h
  rcases h with (((⟨rfl, rfl⟩ | ⟨rfl, rfl⟩) | ⟨rfl, rfl⟩) | ⟨rfl, rfl⟩) | ⟨rfl, rfl⟩ <;>
    exact ⟨by simp, by simp [Token.isDelimiter], by simp [Token.isDelimiter],
      by simp [Vocabulary.variableDeclarators]⟩

/-- A token that hides those before it has no slot if none is promised. -/
theorem slot_head?_slotted {w : SlotWalk} (hpromise : w.promise.next = none) {ts : List Token}
    (h : ∀ t ∈ ts.head?, t.Hides) (ahead : List Token) :
    ∀ u ∈ (w.slotted ahead ts).head?, u.slot = none := by
  cases ts with
  | nil => exact nofun
  | cons t ts =>
    rintro u ⟨⟩
    exact (slot_of_kind (h t rfl).kind w _).trans hpromise

/-! ### A separator after a word -/

section Separated

variable {before rest : List Token} {t : Token}
  (hslot : (start.afterAll (t :: rest) before).slot t rest = some .memberAccess)
  (hrest : ∀ n ∈ rest.head?, n.isNamespaceSeparator = false)

include hslot hrest

/-- What follows a word in the place of a member's owner, if it is no separator, is an arrow. -/
theorem exists_arrow_of_memberAccess :
    ∃ n more, rest = n :: more ∧ n.isMemberArrow = true := by
  have hsuits : Slot.memberAccess.Suits t rest.head? :=
    suits_slot (fits_afterAll (Promise.fits_none _)) hslot
  obtain ⟨n, hn, hinvokes⟩ := isInvoked_iff.mp hsuits.2
  obtain ⟨more, rfl⟩ := List.head?_eq_some_iff.mp hn
  exact ⟨n, more, rfl, hinvokes.resolve_right (by simp [hrest n hn])⟩

/-- **A separator.**  A namespace separator between a word and an arrow changes no slot. -/
theorem infer_separated {separator : Token} (hseparator : separator.isNamespaceSeparator = true) :
    ∃ us vs : List SlottedToken, us.length = before.length ∧ (∀ v ∈ vs.head?, v.slot = none) ∧
      SlottedToken.infer (before ++ t :: rest) = us ++ ⟨t, some .memberAccess⟩ :: vs ∧
      SlottedToken.infer (before ++ t :: separator :: rest) =
        us ++ ⟨t, some .memberAccess⟩ :: ⟨separator, none⟩ :: vs := by
  obtain ⟨n, more, rfl, hn⟩ := exists_arrow_of_memberAccess hslot hrest
  obtain ⟨hsort, hb, hbareword⟩ := barewordSlot_of_slot hslot (by decide) (by decide)
  have hinvokes : isInvoked (some n) = true := isInvoked_iff.mpr ⟨n, rfl, .inl hn⟩
  have hinvokes' : isInvoked (some separator) = true :=
    isInvoked_iff.mpr ⟨separator, rfl, .inr hseparator⟩
  have hplain := Token.isPlain_of_isBareword hb hsort
  have hmark := Token.not_isOperator_of_isBareword hb Token.evaluationMark
  have hparenthesis := Token.not_isDelimiter_of_isBareword hb "("
  have halike : AheadAlike (t :: n :: more) (t :: separator :: n :: more) :=
    aheadAlike_cons hmark hparenthesis (fun _ => hinvokes'.trans hinvokes.symm)
      (by simp [not_startsList_of_isInvoked hinvokes, not_startsList_of_isInvoked hinvokes'])
  have hafterNext := afterNext_promise_afterAll hmark hparenthesis before (n :: more)
  have hhides : ∀ u ∈ (n :: more).head?, u.Hides := by
    rintro u ⟨⟩
    exact hides_of_isMemberArrow hn
  have hpromise : (start.afterAll (t :: n :: more) before).promise.later = Promise.none := by
    rw [Promise.later, hafterNext]
    rfl
  have hkind := Token.kind_of_isNamespaceSeparator hseparator
  have hseparatorPlain : separator.IsPlain :=
    Token.isPlain_of_kind (by simp [hkind]) (by simp [hkind])
  have hnone :
      ((start.afterAll (t :: n :: more) before).after t (n :: more)).promise.next = none := by
    rw [after_of_isPlain hplain, hpromise]
    rfl
  refine ⟨_, _, length_slotted start (t :: n :: more) before, slot_head?_slotted hnone hhides [],
    hslot ▸ infer_append before t (n :: more), ?_⟩
  refine infer_replaced [t, separator]
    (separator :: t :: (start.afterAll (t :: n :: more) before).before)
    [⟨t, some .memberAccess⟩, ⟨separator, none⟩]
    (slotted_of_aheadAlike halike start before) (afterAll_of_aheadAlike halike start before)
    ?_ ?_ hhides
  · simp only [slotted, List.cons_append, List.nil_append,
      slot_of_kind (show separator.kind ≠ .identifier by simp [hkind]),
      slot_of_isInvoked hinvokes hinvokes' _ t more, hslot, after_of_isPlain hplain, hpromise]
    rfl
  · -- neither the word nor the separator ends a statement
    have hend : separator.isPunctuation ";" = false :=
      Token.not_isPunctuation_of_isNamespaceSeparator hseparator (by decide)
    simp only [afterAll, List.cons_append, List.nil_append, after_of_isPlain hplain,
      after_of_isPlain hseparatorPlain, hpromise, hend, Token.not_isPunctuation_of_isBareword hb]
    rfl

end Separated

/-! ### The walk after a fat comma -/

section FatComma

variable {v : Token} (hv : v.isFatComma = true)

include hv

theorem kind_of_isFatComma : v.kind = .operator := Token.kind_of_isOperator hv

/-- What a fat comma stands before is seen from before it only as the start of a list. -/
theorem aheadAlike_of_isFatComma {xs ys : List Token}
    (hlist : ys.head?.any startsList = xs.head?.any startsList) :
    AheadAlike (v :: xs) (v :: ys) := by
  have hk := kind_of_isFatComma hv
  simp only [Token.isFatComma, Token.isOperator, Bool.and_eq_true, beq_iff_eq] at hv
  refine aheadAlike_cons ?_ ?_ (fun hb => ?_) hlist
  · simp [Token.isOperator, Token.fatComma, Token.evaluationMark, hv.2]
  · simp [Token.isDelimiter, hk]
  · simp [Token.isBareword, hk] at hb

/-- After a fat comma nothing is promised. -/
theorem afterAll_concat_fatComma (init rest : List Token) :
    start.afterAll rest (init ++ [v]) = ⟨v :: (start.afterAll (v :: rest) init).before,
      (start.afterAll (v :: rest) init).braces, false, none, .none⟩ := by
  have hk := kind_of_isFatComma hv
  have hplain : v.IsPlain := Token.isPlain_of_kind (by simp [hk]) (by simp [hk])
  have halike : AheadAlike (v :: rest) (v :: rest) := aheadAlike_of_isFatComma hv rfl
  have hafterNext := afterNext_promise_afterAll (halike.mark v rfl) (halike.parenthesis v rfl)
    init rest
  rw [afterAll_concat, after_of_isPlain hplain, Promise.later, hafterNext]
  simp [Token.isPunctuation, hk, Promise.none]

theorem slotted_concat_fatComma (init rest : List Token) :
    start.slotted rest (init ++ [v]) = start.slotted (v :: rest) init ++
      [⟨v, (start.afterAll (v :: rest) init).promise.next⟩] := by
  have hk := kind_of_isFatComma hv
  rw [slotted_append, slotted, slotted, slot_of_kind (by simp [hk])]
  rfl

/-- A fat comma before a word that starts no list has no slot. -/
theorem next_promise_of_isFatComma {t : Token} (ht : startsList t = false)
    (init rest : List Token) :
    (start.afterAll (v :: t :: rest) init).promise.next = none := by
  have hk := kind_of_isFatComma hv
  have hgiven := given_afterAll (w := start) Promise.given_none (v :: t :: rest) init
  have hfits : (start.afterAll (v :: t :: rest) init).promise.Fits (v :: t :: rest) :=
    fits_afterAll (Promise.fits_none _)
  rw [Option.eq_none_iff_forall_ne_some]
  intro slot hslot
  have hpromisable := hgiven slot (.inl hslot)
  simp only [Slot.promisable, List.mem_cons, List.not_mem_nil, or_false] at hpromisable
  rcases hpromisable with rfl | rfl
  · -- a key is a word
    have hkey : v.isBareword = true := (hfits.next _ hslot).1
    simp [Token.isBareword, hk] at hkey
  · -- a comparator comes before a list
    have hcomparator := ((next_promise_start_iff init v (t :: rest)).mp hslot).2
    rw [comparatorSlot_eq_comparator_iff] at hcomparator
    simp [Token.isDelimiter, Token.comparesBefore, hk, ht] at hcomparator

end FatComma

/-! ### A value as a call or as a literal -/

/-- A word that is not reserved starts no list. -/
theorem not_startsList_of_isBareword {t : Token} (hb : t.isBareword = true)
    (hreserved : Vocabulary.isReserved t.text = false) : startsList t = false := by
  have hproducers : ∀ word ∈ Vocabulary.listProducers, Vocabulary.isReserved word = true := by
    decide
  have hlist : t.text ∉ Vocabulary.listProducers := by
    intro h
    rw [hproducers t.text h] at hreserved
    cases hreserved
  simp [startsList, Token.hasSigil, Token.sigil?_of_isBareword hb,
    Token.not_isDelimiter_of_isBareword hb, hlist]

section Value

variable {before rest : List Token} {t : Token}
  (hslot : (start.afterAll (t :: rest) before).slot t rest = some .pairValue)

include hslot

theorem exists_fatComma_of_pairValue :
    ∃ init v, before = init ++ [v] ∧ v.isFatComma = true ∧ t.isBareword = true ∧
      t.isWord "sort" = false ∧ Vocabulary.isReserved t.text = false ∧
      ∀ n ∈ rest.head?, n.Hides := by
  obtain ⟨hsort, hb, hbareword⟩ := barewordSlot_of_slot hslot (by decide) (by decide)
  obtain ⟨hcomma, hreserved, hend⟩ := of_barewordSlot_eq_pairValue hbareword
  rcases List.eq_nil_or_concat before with rfl | ⟨init, v, rfl⟩
  · cases hcomma
  · rw [List.concat_eq_append] at hcomma ⊢
    refine ⟨init, v, rfl, ?_, hb, hsort, hreserved, hides_of_endsValue hend⟩
    rw [back?, before_afterAll, List.reverse_append] at hcomma
    exact hcomma

/-- The tokens next to a value have no slot. -/
theorem slots_around_value :
    (∀ u ∈ (start.slotted (t :: rest) before).getLast?, u.slot = none) ∧
    ∀ u ∈ (((start.afterAll (t :: rest) before).after t rest).slotted [] rest).head?,
      u.slot = none := by
  obtain ⟨init, v, rfl, hv, hb, hsort, hreserved, hhides⟩ := exists_fatComma_of_pairValue hslot
  constructor
  · rw [slotted_concat_fatComma hv, List.getLast?_concat]
    rintro u ⟨⟩
    exact next_promise_of_isFatComma hv (not_startsList_of_isBareword hb hreserved) init rest
  · refine slot_head?_slotted ?_ hhides []
    rw [after_of_isPlain (Token.isPlain_of_isBareword hb hsort), afterAll_concat_fatComma hv]
    rfl

/-- Tokens in the place of a value, of which the first starts no list, change no other slot if they
leave the walk as the value does. -/
theorem infer_revalued (us : List Token) (mid : List SlottedToken)
    (hlist : (us ++ rest).head?.any startsList = false)
    (hmid : (start.afterAll (t :: rest) before).slotted rest us = mid)
    (hwalk : ∀ w : SlotWalk, w.promise = Promise.none →
      w.afterAll rest us = ⟨us.reverse ++ w.before, w.braces, false, none, .none⟩) :
    SlottedToken.infer (before ++ (us ++ rest)) = start.slotted (t :: rest) before ++
      (mid ++ ((start.afterAll (t :: rest) before).after t rest).slotted [] rest) := by
  obtain ⟨init, v, rfl, hv, hb, hsort, hreserved, hhides⟩ := exists_fatComma_of_pairValue hslot
  have ht := not_startsList_of_isBareword hb hreserved
  have halike : AheadAlike (v :: t :: rest) (v :: (us ++ rest)) :=
    aheadAlike_of_isFatComma hv (hlist.trans (by simp [ht]))
  refine infer_replaced us (us.reverse ++ (start.afterAll (t :: rest) (init ++ [v])).before) mid
    ?_ ?_ hmid ?_ hhides
  · rw [slotted_concat_fatComma hv, slotted_concat_fatComma hv, slotted_of_aheadAlike halike,
      afterAll_of_aheadAlike halike]
  · rw [afterAll_concat_fatComma hv, afterAll_concat_fatComma hv, afterAll_of_aheadAlike halike]
  · have hpromise : (start.afterAll (t :: rest) (init ++ [v])).promise = Promise.none := by
      rw [afterAll_concat_fatComma hv]
    rw [hwalk _ hpromise, after_of_isPlain (Token.isPlain_of_isBareword hb hsort), hpromise,
      Token.not_isPunctuation_of_isBareword hb]
    rfl

/-- **A call.**  A value with a pair of parentheses after it has no slot, nor have these, and all
other slots stay. -/
theorem infer_called {opening closing : Token} (hopening : opening.isDelimiter "(" = true)
    (hclosing : closing.isDelimiter ")" = true) :
    ∃ us vs : List SlottedToken, us.length = before.length ∧ (∀ v ∈ vs.head?, v.slot = none) ∧
      SlottedToken.infer (before ++ t :: rest) = us ++ ⟨t, some .pairValue⟩ :: vs ∧
      SlottedToken.infer (before ++ t :: opening :: closing :: rest) =
        us ++ ⟨t, none⟩ :: ⟨opening, none⟩ :: ⟨closing, none⟩ :: vs := by
  refine ⟨_, _, length_slotted start (t :: rest) before, (slots_around_value hslot).2,
    hslot ▸ infer_append before t rest, ?_⟩
  obtain ⟨init, v, rfl, hv, hb, hsort, hreserved, -⟩ := exists_fatComma_of_pairValue hslot
  have hplain := Token.isPlain_of_isBareword hb hsort
  have hplain₁ := Token.isPlain_of_isDelimiter hopening (by decide) (by decide)
  have hplain₂ := Token.isPlain_of_isDelimiter hclosing (by decide) (by decide)
  have hk₁ := Token.kind_of_isDelimiter hopening
  have hk₂ := Token.kind_of_isDelimiter hclosing
  refine infer_revalued hslot [t, opening, closing]
    [⟨t, none⟩, ⟨opening, none⟩, ⟨closing, none⟩] ?_ ?_ fun w hw => ?_
  · simp [not_startsList_of_isBareword hb hreserved]
  · have hwalk := afterAll_concat_fatComma hv init (t :: rest)
    have hpromise : (start.afterAll (t :: rest) (init ++ [v])).promise = Promise.none := by
      rw [hwalk]
    have hnone : ∀ us, (start.afterAll (t :: rest) (init ++ [v])).slot t (opening :: us) = none :=
      fun us => (slot_of_isBareword hpromise hb hsort _).trans
        (barewordSlot_of_call (by rw [hwalk]) hv hopening hreserved)
    simp only [slotted, List.cons_append, List.nil_append, hnone,
      slot_of_kind (show opening.kind ≠ .identifier by simp [hk₁]),
      slot_of_kind (show closing.kind ≠ .identifier by simp [hk₂]), after_of_isPlain hplain,
      after_of_isPlain hplain₁, hpromise]
    rfl
  · simp only [afterAll, after_of_isPlain hplain, after_of_isPlain hplain₁,
      after_of_isPlain hplain₂, hw, Token.isPunctuation, hk₂]
    rfl

/-- **A literal.**  A literal in the place of a value has no slot, nor has the token before it, and
all other slots stay. -/
theorem infer_quoted {literal : Token} (hkind : literal.kind = .stringLiteral)
    (hlist : literal.text ∉ Vocabulary.listProducers) :
    ∃ us vs : List SlottedToken, us.length = before.length ∧ (∀ u ∈ us.getLast?, u.slot = none) ∧
      (∀ v ∈ vs.head?, v.slot = none) ∧
      SlottedToken.infer (before ++ t :: rest) = us ++ ⟨t, some .pairValue⟩ :: vs ∧
      SlottedToken.infer (before ++ literal :: rest) = us ++ ⟨literal, none⟩ :: vs := by
  obtain ⟨hbefore, hafter⟩ := slots_around_value hslot
  refine ⟨_, _, length_slotted start (t :: rest) before, hbefore, hafter,
    hslot ▸ infer_append before t rest, ?_⟩
  obtain ⟨init, v, rfl, hv, -⟩ := exists_fatComma_of_pairValue hslot
  have hplain : literal.IsPlain := Token.isPlain_of_kind (by simp [hkind]) (by simp [hkind])
  refine infer_revalued hslot [literal] [⟨literal, none⟩] ?_ ?_ fun w hw => ?_
  · simp [startsList, Token.hasSigil, Token.sigil?, Token.isDelimiter, hkind, hlist]
  · rw [slotted, slotted, slot_of_kind (by simp [hkind]), afterAll_concat_fatComma hv]
    rfl
  · simp [afterAll, after_of_isPlain hplain, hw, Token.isPunctuation, hkind]
    rfl

end Value

end SlotWalk

end WordRole
