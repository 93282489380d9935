import WordRole.CodeUnit
import WordRole.Proofs.Analysis.Step
import WordRole.Proofs.Classification.Rules

/-!
# Rules that ask for the neighbours

Two rules look at the tokens around a word before they ask what its name is declared as.

* `Occurrence.classify_containerKey`: a key is a string or evaluated by its neighbours alone,
  whatever its name is declared as;
* `Occurrence.classify_specialBlock`: a word that starts no special block is judged by the rule for
  statements, but in the slot of a statement a constant of its name comes first.
-/

namespace WordRole

/-- What follows a key that stands alone: the end of a subscript, of a key or of a list item, or of
a name. -/
def Token.endsKey (t : Token) : Bool :=
  t.isDelimiter "\x7d" || t.isOperator "=>" || t.isPunctuation "," || t.isPunctuation "::"

namespace Occurrence

theorem classify_of_isBareword {o : Occurrence} (hword : o.token.isBareword = true)
    (hs : o.slot ≠ .orderingComparator) (hl : o.slot ≠ .lexicalHandleDeclaration) :
    o.classify = .ok (some o.bareword) := by
  rw [classify, if_neg hs, if_neg (by simp [hl]), if_neg (by simp [hword])]

/-! ### Keys -/

theorem category_containerKey (o : Occurrence) :
    o.containerKey.category =
      if o.previousIs (·.isOperator "+") || o.nextIs (!·.endsKey) then .evaluatedKey
      else .literalKey := by
  have hmark : o.previousIs (·.isOperator Token.evaluationMark) =
      o.previousIs (·.isOperator "+") := rfl
  have harguments : (o.nextIs fun t => !(t.isDelimiter "\x7d" || t.isFatComma ||
      t.isPunctuation "," || t.isNamespaceSeparator)) = o.nextIs (!·.endsKey) := rfl
  unfold containerKey
  rw [hmark, harguments]
  cases o.previousIs (·.isOperator "+")
  · cases o.nextIs (!·.endsKey)
    · -- a declaration of the name changes the reason and the rewrite
      dsimp only
      cases o.declaredAt .constant <;> cases o.declaredAt .callable <;> rfl
    · rfl
  · rfl

/-- **Keys.**  A key is evaluated when a mark stands before it, or something after it that is none
of a closing brace, a fat comma, a comma and a namespace separator.  Else it is a string, whatever
its name is declared as. -/
theorem classify_containerKey {o : Occurrence} (hword : o.token.isBareword = true)
    (hslot : o.slot = .containerKey) :
    ∃ c, o.classify = .ok (some c) ∧
      (c.category = .evaluatedKey ↔ o.previousIs (·.isOperator "+") = true ∨
        ∃ n, o.next = some n ∧ n.isDelimiter "\x7d" = false ∧ n.isOperator "=>" = false ∧
          n.isPunctuation "," = false ∧ n.isPunctuation "::" = false) ∧
      (c.category ≠ .evaluatedKey → c.category = .literalKey) := by
  have hrule : o.bareword = o.containerKey := by simp only [bareword, hslot]
  have hnext : o.nextIs (!·.endsKey) = true ↔
      ∃ n, o.next = some n ∧ n.isDelimiter "\x7d" = false ∧ n.isOperator "=>" = false ∧
        n.isPunctuation "," = false ∧ n.isPunctuation "::" = false := by
    rw [nextIs, Option.any_eq_true]
    simp [Token.endsKey, and_assoc]
  refine ⟨o.containerKey, ?_, ?_, ?_⟩
  · rw [classify_of_isBareword hword (by simp [hslot]) (by simp [hslot]), hrule]
  · rw [category_containerKey, ← hnext, ← Bool.or_eq_true]
    cases o.previousIs (·.isOperator "+") || o.nextIs (!·.endsKey) <;> simp
  · rw [category_containerKey]
    cases o.previousIs (·.isOperator "+") || o.nextIs (!·.endsKey) <;> simp

/-- the key of `$h{f ...` before a token -/
def keyBefore (next : Token) : Occurrence where
  token := ⟨.identifier, "f", ⟨1, 4⟩⟩
  slot := .containerKey
  previous := some ⟨.delimiter, "\x7b", ⟨1, 3⟩⟩
  next := some next
  declared := .empty

/-- What follows the key of `$h{f @_}` has it evaluated. -/
theorem classify_containerKey_of_arguments :
    (keyBefore ⟨.identifier, "@_", ⟨1, 6⟩⟩).token.isBareword = true ∧
      ∃ c, (keyBefore ⟨.identifier, "@_", ⟨1, 6⟩⟩).classify = .ok (some c) ∧
        c.category = .evaluatedKey := by
  obtain ⟨c, hc, hcategory, -⟩ :=
    classify_containerKey (o := keyBefore ⟨.identifier, "@_", ⟨1, 6⟩⟩) (by decide) rfl
  exact ⟨by decide, c, hc, hcategory.mpr (.inr ⟨_, rfl, by decide, by decide, by decide,
    by decide⟩)⟩

/-- Before a comma and before a namespace separator, which are neither a closing brace nor a fat
comma, a key is reported as one that stands alone. -/
theorem literalKey_before_comma_and_separator :
    let comma : Token := ⟨.punctuation, ",", ⟨1, 5⟩⟩
    let separator : Token := ⟨.punctuation, "::", ⟨1, 5⟩⟩
    comma.isDelimiter "\x7d" = false ∧ comma.isOperator "=>" = false ∧
    separator.isDelimiter "\x7d" = false ∧ separator.isOperator "=>" = false ∧
    (keyBefore comma).token.isBareword = true ∧
    (keyBefore comma).previousIs (·.isOperator "+") = false ∧
    (∃ c, (keyBefore comma).classify = .ok (some c) ∧ c.category = .literalKey ∧
      c.rationale = "a lone bareword key is always the literal string 'f'") ∧
    (keyBefore separator).token.isBareword = true ∧
    (keyBefore separator).previousIs (·.isOperator "+") = false ∧
    ∃ c, (keyBefore separator).classify = .ok (some c) ∧ c.category = .literalKey ∧
      c.rationale = "a lone bareword key is always the literal string 'f'" := by
  exact ⟨by decide, by decide, by decide, by decide, by decide, by decide,
    ⟨_, rfl, rfl, rfl⟩, by decide, by decide, ⟨_, rfl, rfl, rfl⟩⟩

/-! ### Words that start no special block -/

def inSlot (o : Occurrence) (slot : Slot) : Occurrence := { o with slot }

end Occurrence

def Ruling.inSlot (r : Ruling) (slot : Slot) : Ruling := { r with slot }

namespace Occurrence

theorem statementCall_inSlot (o : Occurrence) (slot : Slot) :
    (o.inSlot slot).statementCall = o.statementCall.inSlot slot := by
  have hdeclared : (o.inSlot slot).declaredAt .callable = o.declaredAt .callable := rfl
  unfold statementCall
  rw [hdeclared]
  cases o.declaredAt .callable <;> rfl

theorem category_of_statementCall (o : Occurrence) :
    o.statementCall.category =
      if o.isDeclared .callable then .barewordCall else .unknownIdentifierError := by
  rw [isDeclared_eq_isSome]
  unfold statementCall
  cases o.declaredAt .callable <;> rfl

theorem bareword_inSlot_statementCall (o : Occurrence) :
    (o.inSlot .statementCall).bareword =
      if o.isDeclared .constant then o.constantReference.inSlot .statementCall
      else o.statementCall.inSlot .statementCall := by
  rw [← statementCall_inSlot]
  rfl

/-- **Special blocks.**  A word in the slot of a special block that starts none is judged as in the
slot of a statement, but for the slot, just when its name is declared as no constant.  A constant is
taken for a call there, of a subroutine that may not be known. -/
theorem classify_specialBlock {o : Occurrence} (hword : o.token.isBareword = true)
    (hslot : o.slot = .specialBlock)
    (hother : Vocabulary.isSpecialBlock o.name = false ∨
      o.nextIs (·.isDelimiter "\x7b") = false) :
    ∃ c d, o.classify = .ok (some c) ∧
      (o.inSlot .statementCall).classify = .ok (some d) ∧
      (c.inSlot .statementCall = d ↔ o.isDeclared .constant = false) ∧
      (o.isDeclared .constant = true → d.category = .constantReference ∧
        c.category =
          if o.isDeclared .callable then .barewordCall else .unknownIdentifierError) := by
  have hfallback : o.bareword = o.statementCall := by
    simp only [bareword, hslot, specialBlock]
    rcases hother with h | h <;> simp [h]
  refine ⟨o.statementCall, (o.inSlot .statementCall).bareword, ?_, ?_, ?_, ?_⟩
  · rw [classify_of_isBareword hword (by simp [hslot]) (by simp [hslot]), hfallback]
  · exact classify_of_isBareword hword (by simp [inSlot]) (by simp [inSlot])
  · rw [bareword_inSlot_statementCall]
    cases o.isDeclared .constant
    · simp
    · -- the two rulings are not even in one category
      have hne : o.statementCall.category ≠ .constantReference := by
        rw [category_of_statementCall]
        split <;> simp
      refine iff_of_false (fun h => ?_) (by simp)
      exact hne (congrArg (·.category) h)
  · intro hconstant
    rw [bareword_inSlot_statementCall, if_pos hconstant]
    exact ⟨rfl, o.category_of_statementCall⟩

/-- `PI;` after `use constant PI => 3;`, in the slot of a special block -/
def constantAsBlock : Occurrence where
  token := ⟨.identifier, "PI", ⟨2, 1⟩⟩
  slot := .specialBlock
  previous := some ⟨.punctuation, ";", ⟨1, 21⟩⟩
  next := some ⟨.punctuation, ";", ⟨2, 3⟩⟩
  declared := DeclarationTable.empty.insert ⟨"PI", .constant, ⟨1, 14⟩⟩

theorem classify_specialBlock_of_constant :
    constantAsBlock.token.isBareword = true ∧
      Vocabulary.isSpecialBlock constantAsBlock.name = false ∧
      ∃ c d, constantAsBlock.classify = .ok (some c) ∧
        (constantAsBlock.inSlot .statementCall).classify = .ok (some d) ∧
        c.category = .unknownIdentifierError ∧ d.category = .constantReference := by
  obtain ⟨c, d, hc, hd, -, hconstant⟩ :=
    classify_specialBlock (o := constantAsBlock) (by decide) rfl (.inl (by decide))
  obtain ⟨hreference, hcall⟩ := hconstant (by decide)
  exact ⟨by decide, by decide, c, d, hc, hd, hcall.trans (by decide), hreference⟩

end Occurrence

/-- `PI;` in a slot, after the declaration of the constant -/
def constantThen (slot : Slot) : List SlottedToken :=
  [⟨⟨.identifier, "PI", ⟨1, 14⟩⟩, some .constantDeclaration⟩,
    ⟨⟨.punctuation, ";", ⟨1, 21⟩⟩, none⟩, ⟨⟨.identifier, "PI", ⟨2, 1⟩⟩, some slot⟩,
    ⟨⟨.punctuation, ";", ⟨2, 3⟩⟩, none⟩]

/-- In the slot of a special block a declared constant is an unknown identifier, for which the unit
fails; in the slot of a statement it is a reference to the constant. -/
theorem Analyzer.constant_unknown_in_specialBlock :
    ((start (constantThen .specialBlock) []).run "u" .strict).classifications.map (·.category) =
      [.constantDeclaration, .unknownIdentifierError] ∧
    ((start (constantThen .specialBlock) []).run "u" .strict).outcome = .failed ∧
    ((start (constantThen .statementCall) []).run "u" .strict).classifications.map (·.category) =
      [.constantDeclaration, .constantReference] ∧
    ((start (constantThen .statementCall) []).run "u" .strict).outcome = .clean := by
  rw [run_eq_finish_pass, run_eq_finish_pass]
  decide

end WordRole
