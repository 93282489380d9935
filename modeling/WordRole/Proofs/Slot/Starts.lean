import WordRole.Proofs.Slot.Enclosing

/-!
# Where statements start

A statement starts at the beginning, after a semicolon, in a block and after a block.  The walk
knows this by a flag and by what the last brace has closed; here both are told by the tokens before,
where braces are paired last in, first out (`Slot.StartsStatement`).

* `Slot.atStart_walkAfter_iff`: what the flag says;
* `Slot.opened_eq_subscript_iff`: after which token a brace opens a subscript;
* `Slot.opensAfter_closing_iff`: what a brace opens that follows a closing one;
* `Slot.openedBraces_eq_nil_iff`: no brace is open when each one has been closed;
* `Slot.infer_at_statement_start`: the words that are calls of their own or special blocks.
-/

namespace WordRole

/-! ### Braces in pairs -/

namespace Token

theorem text_of_isWord {t : Token} {s : String} (h : t.isWord s = true) : t.text = s := by
  simp only [isWord, Bool.and_eq_true, beq_iff_eq] at h
  exact h.2

/-- Tokens that close more braces than are open do so at a first one. -/
theorem openBraces?_eq_none_iff {n : Nat} {ts : List Token} :
    openBraces? n ts = none ↔ ∃ body closing after, ts = body ++ closing :: after ∧
      openBraces? n body = some 0 ∧ closing.isDelimiter "\x7d" = true := by
  constructor
  · intro h
    induction ts generalizing n with
    | nil => cases h
    | cons t ts ih =>
      -- what is known of the tokens after this one, where it leaves `m` braces open
      have later : ∀ m, openBraces? m ts = none →
          (∀ us, openBraces? n (t :: us) = openBraces? m us) →
          ∃ body closing after, t :: ts = body ++ closing :: after ∧
            openBraces? n body = some 0 ∧ closing.isDelimiter "\x7d" = true := by
        intro m hm hstep
        obtain ⟨body, closing, after, rfl, hbody, hclosing⟩ := ih hm
        exact ⟨t :: body, closing, after, rfl, (hstep body).trans hbody, hclosing⟩
      by_cases hopen : t.isDelimiter "\x7b" = true
      · rw [openBraces?, if_pos hopen] at h
        exact later (n + 1) h fun us => by rw [openBraces?, if_pos hopen]
      by_cases hclose : t.isDelimiter "\x7d" = true
      · rw [openBraces?, if_neg hopen, if_pos hclose] at h
        by_cases hn : n = 0
        · exact ⟨[], t, ts, rfl, congrArg some hn, hclose⟩
        · rw [if_neg hn] at h
          exact later (n - 1) h fun us => by
            rw [openBraces?, if_neg hopen, if_pos hclose, if_neg hn]
      · rw [openBraces?, if_neg hopen, if_neg hclose] at h
        exact later n h fun us => by rw [openBraces?, if_neg hopen, if_neg hclose]
  · rintro ⟨body, closing, after, rfl, hbody, hclosing⟩
    have hopen : closing.isDelimiter "\x7b" = false := isDelimiter_eq_of_isDelimiter hclosing "\x7b"
    rw [openBraces?_append, hbody, Option.bind_some, openBraces?, if_neg (by simp [hopen]),
      if_pos hclosing, if_pos rfl]

/-- Whether each opening brace among tokens is closed by a later one of them.  Braces are paired
last in, first out: those between the two are matched. -/
def AllClosed (ts : List Token) : Prop :=
  ∀ front brace inner, ts = front ++ brace :: inner → brace.isDelimiter "\x7b" = true →
    ∃ body closing after, inner = body ++ closing :: after ∧ Matched body ∧
      closing.isDelimiter "\x7d" = true

end Token

namespace Slot

/-- Whether tokens end with a brace that opens something. -/
def EndsOpening (b : Brace) (ts : List Token) : Prop :=
  ∃ front brace, ts = front ++ [brace] ∧ brace.isDelimiter "\x7b" = true ∧ opensAfter front = b

/-- Whether tokens end with a brace that closes what another one has opened.  Braces are paired last
in, first out: those between the two are matched. -/
def EndsClosing (b : Brace) (ts : List Token) : Prop :=
  ∃ front brace body closing, ts = front ++ brace :: (body ++ [closing]) ∧
    brace.isDelimiter "\x7b" = true ∧ Token.Matched body ∧ closing.isDelimiter "\x7d" = true ∧
    opensAfter front = b

/-- Whether a statement starts after tokens: at the beginning, after a semicolon, in a block or
after one. -/
def StartsStatement (before : List Token) : Prop :=
  before = [] ∨ before.getLast?.any (·.isPunctuation ";") = true ∨ EndsOpening .block before ∨
    EndsClosing .block before

/-! ### What the last token has done -/

section Concat

variable {front : List Token} {last : Token} {b : Brace}

theorem endsOpening_concat_iff : EndsOpening b (front ++ [last]) ↔
    last.isDelimiter "\x7b" = true ∧ opensAfter front = b := by
  constructor
  · rintro ⟨front', brace, h, hbrace, hopens⟩
    obtain ⟨rfl, hlast⟩ := List.append_inj' h rfl
    obtain rfl : last = brace := List.head_eq_of_cons_eq hlast
    exact ⟨hbrace, hopens⟩
  · rintro ⟨hbrace, hopens⟩
    exact ⟨front, last, rfl, hbrace, hopens⟩

/-- The brace that a closing one belongs to is the innermost open one. -/
theorem endsClosing_concat_iff : EndsClosing b (front ++ [last]) ↔
    last.isDelimiter "\x7d" = true ∧ (openedBraces front).head? = some b := by
  rw [List.head?_eq_getElem?, getElem?_openedBraces_iff]
  constructor
  · rintro ⟨front', brace, body, closing, h, hbrace, hbody, hclosing, hopens⟩
    rw [← List.cons_append, ← List.append_assoc] at h
    obtain ⟨rfl, hlast⟩ := List.append_inj' h rfl
    obtain rfl : last = closing := List.head_eq_of_cons_eq hlast
    exact ⟨hclosing, front', brace, body, rfl, hbrace, hbody, hopens⟩
  · rintro ⟨hclosing, front', brace, body, rfl, hbrace, hbody, hopens⟩
    exact ⟨front', brace, body, last, by simp, hbrace, hbody, hclosing, hopens⟩

theorem walkAfter_concat : walkAfter (front ++ [last]) =
    (SlotWalk.start.afterAll [last] front).after last [] := SlotWalk.afterAll_concat _ _ _ _

theorem closed_walkAfter_concat : (walkAfter (front ++ [last])).closed =
    if last.isDelimiter "\x7d" then (openedBraces front).head? else none := by
  rw [walkAfter_concat, ← braces_afterAll_start [last] front]
  unfold SlotWalk.after
  by_cases hopen : last.isDelimiter "\x7b" = true
  · have hclose : last.isDelimiter "\x7d" = false := Token.isDelimiter_eq_of_isDelimiter hopen _
    simp [hopen, hclose]
  · by_cases hclose : last.isDelimiter "\x7d" = true <;> simp [hopen, hclose]

theorem atStart_walkAfter_concat : (walkAfter (front ++ [last])).atStart =
    if last.isDelimiter "\x7b" then decide (opensAfter front = .block)
    else if last.isDelimiter "\x7d" then decide ((openedBraces front).head? = some .block)
    else last.isPunctuation ";" := by
  rw [walkAfter_concat, ← braces_afterAll_start [last] front, ← opened_afterAll_start [last] front]
  unfold SlotWalk.after
  dsimp only
  split
  · rfl
  · split <;> rfl

end Concat

theorem not_isPunctuation_of_isDelimiter {t : Token} {s : String} (h : t.isDelimiter s = true)
    (text : String) : t.isPunctuation text = false := by
  simp [Token.isPunctuation, Token.kind_of_isDelimiter h]

/-- The walk knows where a statement starts. -/
theorem atStart_walkAfter_iff (before : List Token) :
    (walkAfter before).atStart = true ↔ StartsStatement before := by
  unfold StartsStatement
  rcases List.eq_nil_or_concat before with rfl | ⟨front, last, rfl⟩
  · exact iff_of_true rfl (.inl rfl)
  rw [List.concat_eq_append, atStart_walkAfter_concat, endsOpening_concat_iff,
    endsClosing_concat_iff, List.getLast?_concat, Option.any_some]
  by_cases hopen : last.isDelimiter "\x7b" = true
  · have hclose : last.isDelimiter "\x7d" = false := Token.isDelimiter_eq_of_isDelimiter hopen _
    simp [hopen, hclose, not_isPunctuation_of_isDelimiter hopen]
  · by_cases hclose : last.isDelimiter "\x7d" = true
    · simp [hopen, hclose, not_isPunctuation_of_isDelimiter hclose]
    · simp [hopen, hclose]

theorem atStart_afterAll_start (rest before : List Token) :
    (SlotWalk.start.afterAll rest before).atStart = (walkAfter before).atStart := by
  obtain ⟨p, hp⟩ := exists_afterAll_eq_walkAfter rest before
  rw [hp]
  rfl

/-- No brace is open when each one has been closed. -/
theorem openedBraces_eq_nil_iff (before : List Token) :
    openedBraces before = [] ↔ Token.AllClosed before := by
  have hopen : ∀ {front brace inner}, before = front ++ brace :: inner →
      brace.isDelimiter "\x7b" = true → openedBraces before = [] →
      Token.openBraces? 0 inner = none := by
    intro front brace inner hbefore hbrace hnil
    rw [Option.eq_none_iff_forall_ne_some]
    intro n hn
    have h := getElem?_openedBraces_iff.mpr ⟨front, brace, inner, hbefore, hbrace, hn, rfl⟩
    simp [hnil] at h
  constructor
  · intro hnil front brace inner hbefore hbrace
    exact Token.openBraces?_eq_none_iff.mp (hopen hbefore hbrace hnil)
  · intro hclosed
    rcases hb : openedBraces before with _ | ⟨b, bs⟩
    · rfl
    · have hhead : (openedBraces before)[0]? = some b := by rw [hb]; rfl
      obtain ⟨front, brace, inner, hbefore, hbrace, hinner, -⟩ := getElem?_openedBraces_iff.mp hhead
      have hnone := Token.openBraces?_eq_none_iff.mpr (hclosed front brace inner hbefore hbrace)
      rw [hnone] at hinner
      cases hinner

/-! ### Braces of subscripts -/

/-- A `constant` is none of the tokens after which a brace opens a subscript. -/
theorem opened_eq_subscript_iff {t : Token} {before : List Token} {closed : Option Brace} :
    Brace.opened (t :: before) closed = .subscript ↔
      t.hasSigil ['$', '@', '%'] = true ∨ t.isMemberArrow = true ∨ t.isDelimiter "]" = true ∨
        t.isDelimiter "\x7d" = true ∧ closed = some .subscript := by
  unfold Brace.opened
  dsimp only
  by_cases huse : Token.endUseConstant (t :: before) = true
  · have hword : t.isWord "constant" = true := by
      cases before with
      | nil => cases huse
      | cons use before => exact ((Bool.and_eq_true _ _).mp huse).1
    simp only [Token.isWord, Bool.and_eq_true, decide_eq_true_eq, beq_iff_eq] at hword
    rw [if_pos huse]
    simp [Token.hasSigil, Token.sigil?, Token.isMemberArrow, Token.isOperator, Token.isDelimiter,
      hword.1, hword.2]
  · have hother : Brace.afterToken t ≠ .subscript := by
      rcases Brace.afterToken_cases t with h | h <;> simp [h]
    rw [if_neg huse]
    cases t.hasSigil ['$', '@', '%'] <;> cases t.isMemberArrow <;> cases t.isDelimiter "]" <;>
      cases t.isDelimiter "\x7d" <;> simp [hother]

theorem opensAfter_concat (front : List Token) (t : Token) :
    opensAfter (front ++ [t]) = Brace.opened (t :: front.reverse)
      (if t.isDelimiter "\x7d" then (openedBraces front).head? else none) := by
  rw [opensAfter, closed_walkAfter_concat, List.reverse_append]
  rfl

/-- A brace after a closing one opens a subscript when that one has closed a subscript. -/
theorem opensAfter_closing_iff (before : List Token) :
    before.getLast?.any (·.isDelimiter "\x7d") = true ∧ opensAfter before = .subscript ↔
      EndsClosing .subscript before := by
  rcases List.eq_nil_or_concat before with rfl | ⟨front, last, rfl⟩
  · refine iff_of_false (by simp) ?_
    rintro ⟨front, brace, body, closing, h, -⟩
    simp at h
  rw [List.concat_eq_append, endsClosing_concat_iff, List.getLast?_concat, Option.any_some]
  refine and_congr_right fun hclosing => ?_
  have hsigil : last.hasSigil ['$', '@', '%'] = false := by
    simp [Token.hasSigil, Token.sigil?, Token.kind_of_isDelimiter hclosing]
  rw [opensAfter_concat, if_pos hclosing, opened_eq_subscript_iff]
  simp [hsigil, Token.isMemberArrow, Token.not_isOperator_of_isDelimiter hclosing,
    Token.isDelimiter_eq_of_isDelimiter hclosing]

/-! ### Words at the start of a statement -/

/-- What stands before a statement is a semicolon or a brace, and asks for nothing in the word. -/
theorem StartsStatement.previous {before : List Token} (h : StartsStatement before) :
    ∀ last ∈ before.getLast?, last.kind ≠ .identifier ∧ last.kind ≠ .operator ∧
      last.isDelimiter "(" = false := by
  rcases List.eq_nil_or_concat before with rfl | ⟨front, last, rfl⟩
  · simp
  rw [List.concat_eq_append] at h ⊢
  rw [List.getLast?_concat]
  rintro _ ⟨⟩
  rcases h with h | h | h | h
  · simp at h
  · rw [List.getLast?_concat, Option.any_some, Token.isPunctuation, Bool.and_eq_true,
      decide_eq_true_eq] at h
    simp [Token.isDelimiter, h.1]
  · have hopen := (endsOpening_concat_iff.mp h).1
    simp [Token.kind_of_isDelimiter hopen, Token.isDelimiter_eq_of_isDelimiter hopen]
  · have hclose := (endsClosing_concat_iff.mp h).1
    simp [Token.kind_of_isDelimiter hclose, Token.isDelimiter_eq_of_isDelimiter hclose]

section AtStart

variable {before : List Token} (h : StartsStatement before)

include h

theorem not_endUseConstant_of_startsStatement : Token.endUseConstant before.reverse = false := by
  rcases List.eq_nil_or_concat before with rfl | ⟨front, last, rfl⟩
  · rfl
  · have hkind := (h.previous last (by simp)).1
    rw [List.concat_eq_append, List.reverse_append, List.reverse_singleton, List.singleton_append]
    cases front.reverse <;> simp [Token.endUseConstant, Token.isWord, hkind]

/-- Nothing is promised to a word that starts a statement. -/
theorem next_promise_of_startsStatement (t : Token) (rest : List Token) :
    (SlotWalk.start.afterAll (t :: rest) before).promise.next = none := by
  have hkey : startsSubscript before = false := by
    rcases List.eq_nil_or_concat before with rfl | ⟨front, last, rfl⟩
    · rfl
    rw [List.concat_eq_append] at h ⊢
    have hoperator := (h.previous last (by simp)).2.1
    rw [startsSubscript, List.reverse_append, List.reverse_singleton, List.singleton_append,
      Token.endOpening, openedBraces_concat]
    by_cases hopen : last.isDelimiter "\x7b" = true
    · -- the brace before opens a block
      have hblock : opensAfter front = .block := by
        have hstart := (atStart_walkAfter_iff _).mpr h
        rwa [atStart_walkAfter_concat, if_pos hopen, decide_eq_true_eq] at hstart
      simp [hopen, hblock]
    · simp [hopen, Token.isOperator, hoperator]
  have hsort : Token.endSort before.reverse = false := by
    rcases List.eq_nil_or_concat before with rfl | ⟨front, last, rfl⟩
    · rfl
    · obtain ⟨hkind, -, hparenthesis⟩ := h.previous last (by simp)
      rw [List.concat_eq_append, List.reverse_append, List.reverse_singleton,
        List.singleton_append]
      cases front.reverse <;> simp [Token.endSort, Token.isWord, hkind, hparenthesis]
  cases hnext : (SlotWalk.start.afterAll (t :: rest) before).promise.next with
  | none => rfl
  | some slot =>
    have hgiven := SlotWalk.given_afterAll (w := .start) Promise.given_none (t :: rest) before slot
      (.inl hnext)
    rcases List.mem_pair.mp hgiven with rfl | rfl
    · have := ((SlotWalk.next_promise_eq_containerKey_iff before t rest).mp hnext).1
      simp [hkey] at this
    · have := ((SlotWalk.next_promise_start_iff before t rest).mp hnext).1
      simp [hsort] at this

/-- A test fails of what stands before a statement, if only words, operators and opening parentheses
pass it. -/
theorem not_any_getLast?_of_startsStatement {p : Token → Bool} (hp : ∀ t : Token, p t = true →
    t.kind = .identifier ∨ t.kind = .operator ∨ t.isDelimiter "(" = true) :
    before.getLast?.any p = false := by
  rw [Option.any_eq_false]
  intro last hlast
  obtain ⟨hidentifier, hoperator, hparenthesis⟩ := h.previous last hlast
  refine Bool.eq_false_iff.mpr fun htest => ?_
  rcases hp last htest with hk | hk | hd
  · exact hidentifier hk
  · exact hoperator hk
  · rw [hparenthesis] at hd
    cases hd

theorem not_isHandle_of_startsStatement (rest : List Token) (next : Option Token) :
    (SlotWalk.start.afterAll rest before).isHandle next = false := by
  have hoperator := not_any_getLast?_of_startsStatement h (p := (·.isOperator "<"))
    fun t ht => .inr (.inl (Token.kind_of_isOperator ht))
  have hparenthesis := not_any_getLast?_of_startsStatement h (p := (·.isDelimiter "("))
    fun t ht => .inr (.inr ht)
  unfold SlotWalk.isHandle SlotWalk.caller?
  rw [SlotWalk.back?_one_afterAll_start, hoperator, hparenthesis, if_neg (by simp),
    Bool.false_and, Bool.false_or]
  exact not_any_getLast?_of_startsStatement h fun t ht =>
    .inl (of_decide_eq_true ((Bool.and_eq_true _ _).mp ht).1)

/-- The slot of a word that starts a statement, by the open braces and by the token after it. -/
theorem barewordSlot_of_startsStatement (rest : List Token) (word : String)
    (next : Option Token) :
    (SlotWalk.start.afterAll rest before).barewordSlot word next =
      if (openedBraces before).head? = some .constantList && next.any (·.isFatComma) then
        some .constantDeclaration
      else if (openedBraces before).isEmpty && Vocabulary.isSpecialBlock word &&
          next.any (·.isDelimiter "\x7b") then some .specialBlock
      else if !Vocabulary.isReserved word && SlotWalk.isInvoked next then some .memberAccess
      else if next.any (·.isFatComma) then some .containerKey
      else if Vocabulary.isReserved word then none
      else if SlotWalk.endsStatementCall next then some .statementCall
      else none := by
  have hstart : (SlotWalk.start.afterAll rest before).atStart = true := by
    rw [atStart_afterAll_start]
    exact (atStart_walkAfter_iff before).mpr h
  have hword : ∀ s, before.getLast?.any (·.isWord s) = false := fun s =>
    not_any_getLast?_of_startsStatement h fun t ht => .inl (Token.kind_of_isWord ht)
  have hoperator : ∀ s, before.getLast?.any (·.isOperator s) = false := fun s =>
    not_any_getLast?_of_startsStatement h fun t ht => .inr (.inl (Token.kind_of_isOperator ht))
  unfold SlotWalk.barewordSlot
  dsimp only
  rw [SlotWalk.back?_one_afterAll_start, SlotWalk.before_afterAll_start, braces_afterAll_start,
    hstart, hword, hword, not_endUseConstant_of_startsStatement h,
    not_isHandle_of_startsStatement h]
  simp only [Token.isMemberArrow, Token.isFatComma, hoperator, Bool.false_eq_true, if_false,
    Bool.false_and, Bool.true_and]
  rfl

end AtStart

/-! ### Calls and special blocks -/

/-- What may follow the name in a call is neither a fat comma, nor an opening brace, nor an arrow or
a separator. -/
theorem not_any_of_endsStatementCall {next : Option Token}
    (h : SlotWalk.endsStatementCall next = true) : next.any (·.isFatComma) = false ∧
      next.any (·.isDelimiter "\x7b") = false ∧ SlotWalk.isInvoked next = false := by
  rcases next with _ | t
  · exact ⟨rfl, rfl, rfl⟩
  simp only [SlotWalk.endsStatementCall, Option.all_some, Bool.or_eq_true, decide_eq_true_eq] at h
  simp only [SlotWalk.isInvoked, Option.any_some, Token.isFatComma, Token.isMemberArrow,
    Token.isNamespaceSeparator, Bool.or_eq_false_iff]
  rcases h with (((hsemicolon | hclose) | hsigil) | hstring) | hnumber
  · simp only [Token.isPunctuation, Bool.and_eq_true, decide_eq_true_eq, beq_iff_eq] at hsemicolon
    simp [Token.isOperator, Token.isDelimiter, Token.isPunctuation, Token.namespaceSeparator,
      hsemicolon]
  · simp [Token.not_isOperator_of_isDelimiter hclose, Token.isDelimiter_eq_of_isDelimiter hclose,
      not_isPunctuation_of_isDelimiter hclose]
  · have hkind : t.kind = .identifier := by
      by_contra hkind
      simp [Token.sigil?, hkind] at hsigil
    simp [Token.isOperator, Token.isDelimiter, Token.isPunctuation, hkind]
  · simp [Token.isOperator, Token.isDelimiter, Token.isPunctuation, hstring]
  · simp [Token.isOperator, Token.isDelimiter, Token.isPunctuation, hnumber]

/-- Calls of their own and special blocks stand at the start of a statement. -/
theorem atStart_of_barewordSlot {w : SlotWalk} {word : String} {next : Option Token} {slot : Slot}
    (h : w.barewordSlot word next = some slot)
    (hslot : slot = .statementCall ∨ slot = .specialBlock) : w.atStart = true := by
  by_contra hstart
  rw [Bool.not_eq_true] at hstart
  unfold SlotWalk.barewordSlot at h
  -- each branch that is left names another slot
  rcases hslot with rfl | rfl <;>
  simp only [hstart, Bool.false_and, Bool.false_eq_true, if_false, ite_eq_iff, Option.some_inj,
    reduceCtorEq, and_false, or_false] at h

/-- The slot of a word that starts a statement, or else is neither a call of its own nor a special
block. -/
theorem infer_eq_iff_barewordSlot {before : List Token} {t : Token} {rest : List Token}
    {slot : Slot} (hslot : slot = .statementCall ∨ slot = .specialBlock) :
    (infer (before ++ t :: rest))[before.length]? = some (some slot) ↔
      t.isBareword = true ∧ t.isWord "sort" = false ∧ StartsStatement before ∧
        (SlotWalk.start.afterAll (t :: rest) before).barewordSlot t.text rest.head? =
          some slot := by
  have hpromise : slot ∉ promisable := by rcases hslot with rfl | rfl <;> decide
  have hscalar : slot ≠ .lexicalHandleDeclaration := by rcases hslot with rfl | rfl <;> decide
  rw [infer, SlotWalk.getElem?_slots, Option.some_inj]
  constructor
  · intro h
    obtain ⟨hsort, hword, hown⟩ := SlotWalk.barewordSlot_of_slot h hpromise hscalar
    have hstart := atStart_of_barewordSlot hown hslot
    rw [atStart_afterAll_start, atStart_walkAfter_iff] at hstart
    exact ⟨hword, hsort, hstart, hown⟩
  · rintro ⟨hword, hsort, hstart, hown⟩
    rw [SlotWalk.slot, next_promise_of_startsStatement hstart, Option.none_or,
      SlotWalk.ownSlot_of_isBareword hword hsort]
    exact hown

theorem infer_eq_statementCall_iff (before : List Token) (t : Token) (rest : List Token) :
    (infer (before ++ t :: rest))[before.length]? = some (some .statementCall) ↔
      t.isBareword = true ∧ Vocabulary.isReserved t.text = false ∧
        SlotWalk.endsStatementCall rest.head? = true ∧ StartsStatement before := by
  rw [infer_eq_iff_barewordSlot (.inl rfl)]
  constructor
  · rintro ⟨hword, -, hstart, hown⟩
    rw [barewordSlot_of_startsStatement hstart] at hown
    -- the branches before that of a call name other slots
    repeat' split at hown
    all_goals cases hown
    rename_i hreserved hends
    exact ⟨hword, Bool.eq_false_iff.mpr hreserved, hends, hstart⟩
  · rintro ⟨hword, hreserved, hends, hstart⟩
    obtain ⟨hcomma, hbrace, hinvoked⟩ := not_any_of_endsStatementCall hends
    refine ⟨hword, ?_, hstart, ?_⟩
    · -- the word `sort` is reserved
      refine Bool.eq_false_iff.mpr fun hsort => ?_
      rw [Token.text_of_isWord hsort] at hreserved
      exact absurd hreserved (by decide)
    · rw [barewordSlot_of_startsStatement hstart]
      simp [hcomma, hbrace, hinvoked, hreserved, hends]

theorem infer_eq_specialBlock_iff (before : List Token) (t : Token) (rest : List Token) :
    (infer (before ++ t :: rest))[before.length]? = some (some .specialBlock) ↔
      t.isBareword = true ∧ Vocabulary.isSpecialBlock t.text = true ∧
        rest.head?.any (·.isDelimiter "\x7b") = true ∧ StartsStatement before ∧
        Token.AllClosed before := by
  rw [infer_eq_iff_barewordSlot (.inr rfl), ← openedBraces_eq_nil_iff]
  constructor
  · rintro ⟨hword, -, hstart, hown⟩
    rw [barewordSlot_of_startsStatement hstart] at hown
    repeat' split at hown
    all_goals cases hown
    rename_i hblock
    simp only [Bool.and_eq_true, List.isEmpty_iff] at hblock
    exact ⟨hword, hblock.1.2, hblock.2, hstart, hblock.1.1⟩
  · rintro ⟨hword, hspecial, hbrace, hstart, hnil⟩
    refine ⟨hword, ?_, hstart, ?_⟩
    · refine Bool.eq_false_iff.mpr fun hsort => ?_
      rw [Token.text_of_isWord hsort] at hspecial
      exact absurd hspecial (by decide)
    · rw [barewordSlot_of_startsStatement hstart, hnil]
      simp [hspecial, hbrace]

/-- **Statements.**  The words that are calls of their own, and those of special blocks, stand where
a statement starts, the latter outside of all braces; and a brace that follows a closing one opens a
subscript when that one has closed a subscript. -/
theorem infer_at_statement_start (before : List Token) (t : Token) (rest : List Token) :
    ((infer (before ++ t :: rest))[before.length]? = some (some .statementCall) ↔
      t.isBareword = true ∧ Vocabulary.isReserved t.text = false ∧
        SlotWalk.endsStatementCall rest.head? = true ∧ StartsStatement before) ∧
    ((infer (before ++ t :: rest))[before.length]? = some (some .specialBlock) ↔
      t.isBareword = true ∧ Vocabulary.isSpecialBlock t.text = true ∧
        rest.head?.any (·.isDelimiter "\x7b") = true ∧ StartsStatement before ∧
        Token.AllClosed before) ∧
    (before.getLast?.any (·.isDelimiter "\x7d") = true ∧ opensAfter before = .subscript ↔
      EndsClosing .subscript before) :=
  ⟨infer_eq_statementCall_iff before t rest, infer_eq_specialBlock_iff before t rest,
    opensAfter_closing_iff before⟩

-- a brace that closes nothing does not count: `} ; END {`
example : infer [⟨.delimiter, "\x7d", ⟨1, 1⟩⟩, ⟨.punctuation, ";", ⟨1, 3⟩⟩,
    ⟨.identifier, "END", ⟨1, 5⟩⟩, ⟨.delimiter, "\x7b", ⟨1, 9⟩⟩] =
    [none, none, some .specialBlock, none] := by
  decide

end Slot

end WordRole
