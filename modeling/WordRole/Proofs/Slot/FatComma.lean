import WordRole.Proofs.Slot.Enclosing

/-!
# Words before a fat comma

A fat comma makes a key of the word before it, whatever the word means elsewhere, unless the tokens
before the word have it declared or invoked (`Slot.beforeFatComma`).  The word `sort` alone is read
apart, before its neighbours are looked at, and is a key in no other place than that of the first
word in a subscript (`Slot.infer_before_fatComma`).
-/

namespace WordRole

/-! ### The place of a word -/

namespace Slot

/-- The slot that a place has a word stand in before a fat comma, by the tokens before the place:
that of a declaration or else of a key, and none after an arrow. -/
def beforeFatComma (before : List Token) : Option Slot :=
  let previous := before.getLast?
  if previous.any (·.isWord "sub") then some .callableDeclaration
  else if previous.any (·.isWord "package") then some .namespaceDeclaration
  else if Token.endUseConstant before.reverse then some .constantDeclaration
  else if previous.any (·.isMemberArrow) then none
  else if (openedBraces before).head? = some .constantList then some .constantDeclaration
  else some .containerKey

/-- The first word in a subscript is a key: it follows the brace, or a mark. -/
theorem beforeFatComma_of_startsSubscript {before : List Token}
    (h : startsSubscript before = true) : beforeFatComma before = some .containerKey := by
  obtain ⟨hend, hhead⟩ := Bool.and_eq_true_iff.mp h
  have hhead : (openedBraces before).head? = some .subscript := of_decide_eq_true hhead
  have hlast : ∃ p ps, before.reverse = p :: ps ∧ p.kind ≠ .identifier ∧
      p.isMemberArrow = false := by
    rcases hr : before.reverse with _ | ⟨p, ps⟩
    · rw [hr] at hend
      cases hend
    · refine ⟨p, ps, rfl, ?_⟩
      rw [hr, Token.endOpening, Bool.or_eq_true, Bool.and_eq_true] at hend
      rcases hend with hbrace | ⟨hmark, -⟩
      · simp [Token.isMemberArrow, Token.isOperator, Token.kind_of_isDelimiter hbrace]
      · simp only [Token.isOperator, Bool.and_eq_true, decide_eq_true_eq, beq_iff_eq] at hmark
        simp [Token.isMemberArrow, Token.isOperator, Token.evaluationMark, Token.memberArrow,
          hmark.1, hmark.2]
  obtain ⟨p, ps, hr, hkind, harrow⟩ := hlast
  have hprevious : before.getLast? = some p := by
    rw [← List.head?_reverse, hr]
    rfl
  have huse : Token.endUseConstant before.reverse = false := by
    rw [hr]
    cases ps <;> simp [Token.endUseConstant, Token.isWord, hkind]
  simp [beforeFatComma, hprevious, huse, hhead, harrow, Token.isWord, hkind]

end Slot

/-! ### The slot of the word -/

theorem SlotWalk.barewordSlot_before_fatComma {comma : Token} (hcomma : comma.isFatComma = true)
    (before rest : List Token) (word : String) :
    (start.afterAll rest before).barewordSlot word (some comma) = Slot.beforeFatComma before := by
  have hinvoked : isInvoked (some comma) = false := isInvoked_of_isFatComma hcomma
  have hbrace : comma.isDelimiter "\x7b" = false := by
    simp [Token.isDelimiter, kind_of_isFatComma hcomma]
  unfold barewordSlot Slot.beforeFatComma
  simp [back?_one_afterAll_start, Slot.braces_afterAll_start, before_afterAll_start, hcomma,
    hinvoked, hbrace]

/-- **Fat commas.**  A word before a fat comma has the slot of its place, be it reserved or not,
except that `sort` has none but as the first word in a subscript. -/
theorem Slot.infer_before_fatComma {before : List Token} {t comma : Token} {rest : List Token}
    (hword : t.isBareword = true) (hcomma : comma.isFatComma = true) :
    (infer (before ++ t :: comma :: rest))[before.length]? =
      some (if t.isWord "sort" && !startsSubscript before then none
        else beforeFatComma before) := by
  rw [infer, SlotWalk.getElem?_slots, SlotWalk.slot,
    SlotWalk.next_promise_before_fatComma hword hcomma]
  congr 1
  cases hstarts : startsSubscript before
  · cases hsort : t.isWord "sort"
    · rw [SlotWalk.ownSlot_of_isBareword hword hsort, List.head?_cons,
        SlotWalk.barewordSlot_before_fatComma hcomma]
      simp
    · simp [SlotWalk.ownSlot, hsort]
  · simp [beforeFatComma_of_startsSubscript hstarts]

/-- `use constant { time => 1` -/
def constantOfTime : List Token :=
  [⟨.identifier, "use", ⟨1, 1⟩⟩, ⟨.identifier, "constant", ⟨1, 5⟩⟩, ⟨.delimiter, "\x7b", ⟨1, 14⟩⟩,
    ⟨.identifier, "time", ⟨1, 16⟩⟩, ⟨.operator, "=>", ⟨1, 21⟩⟩, ⟨.number, "1", ⟨1, 24⟩⟩]

/-- A builtin may be the name of a constant. -/
theorem Slot.infer_before_fatComma_of_builtin :
    Vocabulary.isReserved "time" = true ∧
      (infer constantOfTime)[3]? = some (some .constantDeclaration) :=
  ⟨by decide, @infer_before_fatComma (constantOfTime.take 3) ⟨.identifier, "time", ⟨1, 16⟩⟩
    ⟨.operator, "=>", ⟨1, 21⟩⟩ [⟨.number, "1", ⟨1, 24⟩⟩] (by decide) (by decide)⟩

/-- The key of `sort => 1` has no slot, though the one of `print => 1` has. -/
theorem Slot.key_named_sort_missed :
    let sort : Token := ⟨.identifier, "sort", ⟨1, 1⟩⟩
    let print : Token := ⟨.identifier, "print", ⟨1, 1⟩⟩
    let comma : Token := ⟨.operator, "=>", ⟨1, 7⟩⟩
    let one : Token := ⟨.number, "1", ⟨1, 10⟩⟩
    sort.isBareword = true ∧ comma.isFatComma = true ∧
      infer [sort, comma, one] = [none, none, none] ∧
      infer [print, comma, one] = [some .containerKey, none, none] := by
  decide

end WordRole
