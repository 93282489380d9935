import WordRole.Proofs.Slot.Edits

/-!
# Braces that match

A walk over tokens whose braces match leaves the open braces as they were, so the brace that closes
another one is known to close what that one has opened:

* `SlotWalk.braces_afterAll_of_matched`: the open braces after matched tokens;
* `SlotWalk.after_closing`: the walk after the brace that closes another one;
* `Slot.infer_after_dereference`: a brace after a dereference opens a block, as the one of the
  dereference does, and a word alone in it is a statement.
-/

namespace WordRole

/-! ### Tokens -/

namespace Token

/-- How many braces are open after tokens, where a number of them is open before; nothing if the
tokens close more than these. -/
def openBraces? : Nat → List Token → Option Nat
  | n, [] => some n
  | n, t :: ts =>
    if t.isDelimiter "\x7b" then openBraces? (n + 1) ts
    else if t.isDelimiter "\x7d" then if n = 0 then none else openBraces? (n - 1) ts
    else openBraces? n ts

/-- Whether each brace among tokens is opened and closed there. -/
def Matched (ts : List Token) : Prop := openBraces? 0 ts = some 0

instance (ts : List Token) : Decidable (Matched ts) := inferInstanceAs (Decidable (_ = _))

/-- whether a token has what the brace after it holds dereferenced -/
def dereferences (t : Token) : Bool := t.kind = .operator && ["$", "@", "%"].contains t.text

theorem not_isWord_of_isDelimiter {t : Token} {s : String} (h : t.isDelimiter s = true)
    (word : String) : t.isWord word = false := by
  simp [isWord, kind_of_isDelimiter h]

theorem not_isOperator_of_isDelimiter {t : Token} {s : String} (h : t.isDelimiter s = true)
    (text : String) : t.isOperator text = false := by
  simp [isOperator, kind_of_isDelimiter h]

theorem isDelimiter_eq_of_isDelimiter {t : Token} {s : String} (h : t.isDelimiter s = true)
    (d : String) : t.isDelimiter d = (s == d) := by
  simp only [isDelimiter, Bool.and_eq_true, decide_eq_true_eq, beq_iff_eq] at h
  simp [isDelimiter, h.1, h.2]

end Token

/-! ### What a brace opens -/

namespace Brace

theorem opened_of_dereferences {mark : Token} (h : mark.dereferences = true)
    (before : List Token) (closed : Option Brace) : opened (mark :: before) closed = .block := by
  simp only [Token.dereferences, Bool.and_eq_true, decide_eq_true_eq, List.contains_eq_mem,
    List.mem_cons, List.not_mem_nil, or_false] at h
  obtain ⟨hkind, htext⟩ := h
  have huse : Token.endUseConstant (mark :: before) = false := by
    cases before <;> simp [Token.endUseConstant, Token.isWord, hkind]
  unfold opened
  rcases htext with htext | htext | htext <;>
    simp [huse, Token.hasSigil, Token.sigil?, Token.isMemberArrow, Token.isOperator,
      Token.memberArrow, Token.isDelimiter, afterToken, hkind, htext]

/-- A brace after the one that closes a block opens a block. -/
theorem opened_of_closed_block {closing : Token} (h : closing.isDelimiter "\x7d" = true)
    (before : List Token) : opened (closing :: before) (some .block) = .block := by
  have hkind := Token.kind_of_isDelimiter h
  have huse : Token.endUseConstant (closing :: before) = false := by
    cases before <;> simp [Token.endUseConstant, Token.isWord, hkind]
  have htext : closing.text = "\x7d" := by simpa [Token.isDelimiter, hkind] using h
  unfold opened
  simp [huse, Token.hasSigil, Token.sigil?, Token.isMemberArrow, Token.isOperator,
    Token.isDelimiter, afterToken, hkind, htext]

end Brace

namespace SlotWalk

/-! ### The open braces -/

theorem braces_after (w : SlotWalk) (t : Token) (rest : List Token) :
    (w.after t rest).braces =
      if t.isDelimiter "\x7b" then Brace.opened w.before w.closed :: w.braces
      else if t.isDelimiter "\x7d" then w.braces.tail
      else w.braces := by
  unfold after
  dsimp only
  split
  · rfl
  · split <;> rfl

/-- Tokens open and close braces on top of those that they do not close. -/
theorem braces_afterAll {w : SlotWalk} {inside outside : List Brace}
    (hw : w.braces = inside ++ outside) (rest : List Token) {ts : List Token} {n : Nat}
    (h : Token.openBraces? inside.length ts = some n) :
    ∃ inside', (w.afterAll rest ts).braces = inside' ++ outside ∧ inside'.length = n := by
  induction ts generalizing w inside with
  | nil => exact ⟨inside, hw, Option.some.inj h⟩
  | cons t ts ih =>
    have hafter := w.braces_after t (ts ++ rest)
    rw [Token.openBraces?] at h
    by_cases hopen : t.isDelimiter "\x7b" = true
    · rw [if_pos hopen] at h hafter
      rw [hw, ← List.cons_append] at hafter
      exact ih hafter h
    rw [if_neg hopen] at h hafter
    by_cases hclose : t.isDelimiter "\x7d" = true
    · rw [if_pos hclose] at h hafter
      cases inside with
      | nil => cases h
      | cons brace inside =>
        rw [hw] at hafter
        exact ih hafter h
    · rw [if_neg hclose] at h hafter
      exact ih (hafter.trans hw) h

theorem braces_afterAll_of_matched (w : SlotWalk) (rest : List Token) {ts : List Token}
    (h : Token.Matched ts) : (w.afterAll rest ts).braces = w.braces := by
  have hempty : w.braces = [] ++ w.braces := rfl
  obtain ⟨inside, hbraces, hlength⟩ := braces_afterAll hempty rest h
  rw [hbraces, List.length_eq_zero_iff.mp hlength, List.nil_append]

/-- The brace that closes another one closes what that one has opened. -/
theorem after_closing (w : SlotWalk) {opening closing : Token} {inner : List Token}
    (hopening : opening.isDelimiter "\x7b" = true) (hinner : Token.Matched inner)
    (hclosing : closing.isDelimiter "\x7d" = true) (rest : List Token) :
    let w' := w.afterAll rest (opening :: (inner ++ [closing]))
    w'.closed = some (Brace.opened w.before w.closed) ∧ w'.braces = w.braces := by
  intro w'
  have hclose : closing.isDelimiter "\x7b" = false :=
    Token.isDelimiter_eq_of_isDelimiter hclosing "\x7b"
  have hbraces := braces_afterAll_of_matched
    (w.after opening (inner ++ [closing] ++ rest)) (closing :: rest) hinner
  rw [braces_after, if_pos hopening] at hbraces
  have hw' : w' = ((w.after opening (inner ++ [closing] ++ rest)).afterAll (closing :: rest)
      inner).after closing rest := afterAll_concat _ rest inner closing
  rw [hw']
  unfold after at hbraces ⊢
  simp only [hclose, hclosing, Bool.false_eq_true, if_false, if_true]
  rw [hbraces]
  exact ⟨rfl, rfl⟩

/-! ### A word alone in a block -/

/-- A word between the braces of a block is a statement, unless it is reserved. -/
theorem slot_alone_in_block {w : SlotWalk} {brace word last : Token} {rest : List Token}
    (hbrace : brace.isDelimiter "\x7b" = true)
    (hblock : Brace.opened w.before w.closed = .block)
    (hpromise : w.promise.afterNext = none) (hword : word.isBareword = true)
    (hlast : last.isDelimiter "\x7d" = true) :
    (w.after brace (word :: last :: rest)).slot word (last :: rest) =
      if Vocabulary.isReserved word.text then none else some .statementCall := by
  have hafter : w.after brace (word :: last :: rest) =
      ⟨brace :: w.before, .block :: w.braces, true, none, w.promise.later⟩ := by
    unfold after
    simp [hbrace, hblock]
  have hkind := Token.kind_of_isBareword hword
  rw [hafter]
  unfold slot Promise.later
  rw [hpromise, Option.none_or]
  by_cases hsort : word.isWord "sort" = true
  · have hreserved : Vocabulary.isReserved word.text = true := by
      have htext : word.text = "sort" := by simpa [Token.isWord, hkind] using hsort
      rw [htext]
      decide
    simp [ownSlot, hsort, hreserved]
  -- neither neighbour asks for another slot
  have hconstant : Token.endUseConstant (brace :: w.before) = false := by
    cases w.before <;> simp [Token.endUseConstant, Token.not_isWord_of_isDelimiter hbrace]
  have hinvoked : isInvoked (some last) = false := by
    simp [isInvoked, Token.isMemberArrow, Token.isNamespaceSeparator,
      Token.not_isOperator_of_isDelimiter hlast, Token.isPunctuation,
      Token.kind_of_isDelimiter hlast]
  have hhandle : isHandle ⟨brace :: w.before, .block :: w.braces, true, none,
      ⟨none, none⟩⟩ (some last) = false := by
    simp [isHandle, caller?, back?, Token.not_isOperator_of_isDelimiter hbrace,
      Token.isDelimiter_eq_of_isDelimiter hbrace, Token.kind_of_isDelimiter hbrace]
  have hown := ownSlot_of_isBareword hword (Bool.eq_false_iff.mpr hsort)
    ⟨brace :: w.before, .block :: w.braces, true, none, ⟨none, none⟩⟩ (some last)
  rw [List.head?_cons, hown]
  unfold barewordSlot
  simp [back?, Token.not_isWord_of_isDelimiter hbrace, hconstant, Token.isMemberArrow,
    Token.not_isOperator_of_isDelimiter hbrace, hinvoked, Token.isFatComma,
    Token.not_isOperator_of_isDelimiter hlast, hhandle, endsStatementCall, hlast]

end SlotWalk

/-- **After a dereference.**  Where a brace follows the one that closes a dereference, a word alone
in it is a statement and never a key, unless it is reserved and has no slot. -/
theorem Slot.infer_after_dereference {before inner rest : List Token}
    {mark opening closing brace word last : Token} (hmark : mark.dereferences = true)
    (hopening : opening.isDelimiter "\x7b" = true) (hinner : Token.Matched inner)
    (hclosing : closing.isDelimiter "\x7d" = true) (hbrace : brace.isDelimiter "\x7b" = true)
    (hword : word.isBareword = true) (hlast : last.isDelimiter "\x7d" = true) :
    (infer (before ++ mark :: opening ::
        (inner ++ closing :: brace :: word :: last :: rest)))[before.length + inner.length + 4]? =
      some (if Vocabulary.isReserved word.text then none else some .statementCall) := by
  let ahead := brace :: word :: last :: rest
  let w := SlotWalk.start.afterAll (opening :: (inner ++ [closing]) ++ ahead) (before ++ [mark])
  let w' := w.afterAll ahead (opening :: (inner ++ [closing]))
  have hw : w.before = mark :: before.reverse := by
    show (SlotWalk.afterAll _ _ _).before = _
    rw [SlotWalk.before_afterAll]
    simp [SlotWalk.start]
  obtain ⟨hclosed, -⟩ := w.after_closing hopening hinner hclosing ahead
  rw [hw, Brace.opened_of_dereferences hmark] at hclosed
  have hw' : w'.before = closing :: (inner.reverse ++ opening :: w.before) := by
    show (SlotWalk.afterAll _ _ _).before = _
    rw [SlotWalk.before_afterAll]
    simp
  have hblock : Brace.opened w'.before w'.closed = .block := by
    rw [hw']
    exact hclosed ▸ Brace.opened_of_closed_block hclosing _
  have hpromise : w'.promise.afterNext = none := by
    have hlast : w' = ((w.afterAll (closing :: ahead) (opening :: inner))).after closing ahead :=
      SlotWalk.afterAll_concat w ahead (opening :: inner) closing
    rw [hlast, SlotWalk.afterNext_promise_after, SlotWalk.promised,
      if_neg (by simp [Token.isDelimiter_eq_of_isDelimiter hclosing]),
      if_neg (by simp [Token.not_isWord_of_isDelimiter hclosing])]
    rfl
  let front := (before ++ [mark]) ++ (opening :: (inner ++ [closing])) ++ [brace]
  have hsource : before ++ mark :: opening ::
      (inner ++ closing :: brace :: word :: last :: rest) = front ++ word :: last :: rest := by
    simp [front]
  have hlength : before.length + inner.length + 4 = front.length := by
    simp [front]
    omega
  rw [hsource, hlength, infer, SlotWalk.getElem?_slots, SlotWalk.afterAll_append,
    SlotWalk.afterAll_append]
  exact congrArg some (SlotWalk.slot_alone_in_block hbrace hblock hpromise hword hlast)

/-- `${$ref}{key}` -/
def elementOfReference : List Token :=
  [⟨.operator, "$", ⟨1, 1⟩⟩, ⟨.delimiter, "\x7b", ⟨1, 2⟩⟩, ⟨.identifier, "$ref", ⟨1, 3⟩⟩,
    ⟨.delimiter, "\x7d", ⟨1, 7⟩⟩, ⟨.delimiter, "\x7b", ⟨1, 8⟩⟩, ⟨.identifier, "key", ⟨1, 9⟩⟩,
    ⟨.delimiter, "\x7d", ⟨1, 12⟩⟩]

theorem Slot.infer_after_dereference_of_element :
    Token.Matched [⟨.identifier, "$ref", ⟨1, 3⟩⟩] ∧
      (infer elementOfReference)[5]? = some (some .statementCall) :=
  ⟨by decide, @infer_after_dereference [] [⟨.identifier, "$ref", ⟨1, 3⟩⟩] []
    ⟨.operator, "$", ⟨1, 1⟩⟩ ⟨.delimiter, "\x7b", ⟨1, 2⟩⟩ ⟨.delimiter, "\x7d", ⟨1, 7⟩⟩
    ⟨.delimiter, "\x7b", ⟨1, 8⟩⟩ ⟨.identifier, "key", ⟨1, 9⟩⟩ ⟨.delimiter, "\x7d", ⟨1, 12⟩⟩
    (by decide) (by decide) (by decide) (by decide) (by decide) (by decide) (by decide)⟩

/-- The key of `${$ref}{key}` is taken for a call of an unknown subroutine. -/
theorem CodeUnit.key_after_dereference_rejected :
    Slot.infer elementOfReference = [none, none, none, none, none, some .statementCall, none] ∧
    ((CodeUnit.mk "u" (SlottedToken.infer elementOfReference) []).report
      .strict).classifications.map (·.category) = [.unknownIdentifierError] := by
  refine ⟨by decide, ?_⟩
  show ((Analyzer.start _ _).run "u" .strict).classifications.map _ = _
  rw [Analyzer.classifications_run]
  decide

end WordRole
