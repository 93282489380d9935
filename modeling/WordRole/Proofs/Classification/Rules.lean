import WordRole.Classification

/-!
# What the rules give

Whatever its slot, a ruling repeats its word, its slot and its place, and has the code, the level
and the mark of its category (`Occurrence.judged_of_classify`); what it declares, which the slot
says, is what its category is the category of.  The category is one of a few for each slot
(`Occurrence.category_mem_of_classify`), and told here by what the name is declared as, for each
slot in which a word refers to something.
-/

namespace WordRole

/-- how ambiguous the words of a category are -/
def Category.level : Category → AmbiguityLevel
  | literalKey | evaluatedKey | namespaceName | constantReference | standardHandle
  | callableDeclaration | namespaceDeclaration | constantDeclaration
  | lexicalHandleDeclaration => .unambiguous
  | implicitCallableDeclaration | comparatorNameReference => .conventionalButRisky
  | literalStringLegacy | barewordCall | legacyGlobalHandle => .priorArtLegacy
  | ambiguousCallableOrNamespace | implicitCall | unknownIdentifierError =>
    .ambiguousRequiresRewrite

namespace Occurrence

/-- A ruling on the word, with what its category fixes. -/
structure Judged (o : Occurrence) (r : Ruling) : Prop where
  name : r.name = o.name
  slot : r.slot = o.slot
  position : r.position = o.token.position
  code : r.code = r.category.code
  level : r.level = r.category.level
  nonInterpolating : r.nonInterpolating = r.category.isConstant
  declares : r.declares = r.category.declares

/-! ### Every rule -/

theorem judged_inCategory (o : Occurrence) {c : Category} {level : AmbiguityLevel}
    (h : level = c.level) (hd : c.declares = none) (rationale : String) :
    o.Judged (o.inCategory c level rationale) :=
  ⟨rfl, rfl, rfl, rfl, h, rfl, hd.symm⟩

theorem judged_declaring (o : Occurrence) {c : Category} {level : AmbiguityLevel}
    {kind : DeclarationKind} (h : level = c.level) (hd : c = kind.category) (rationale : String) :
    o.Judged ((o.inCategory c level rationale).declaring kind) :=
  ⟨rfl, rfl, rfl, rfl, h, rfl, (Category.declares_eq_some_iff.mpr hd).symm⟩

theorem judged_containerKey (o : Occurrence) : o.Judged o.containerKey := by
  unfold containerKey
  dsimp only
  split
  · exact o.judged_inCategory rfl rfl _
  · split
    · exact o.judged_inCategory rfl rfl _
    · split <;> exact ⟨rfl, rfl, rfl, rfl, rfl, rfl, rfl⟩

theorem judged_memberAccess (o : Occurrence) : o.Judged o.memberAccess := by
  unfold memberAccess
  split
  · exact o.judged_inCategory rfl rfl _
  · split <;> exact o.judged_inCategory rfl rfl _

theorem judged_pairValue (o : Occurrence) : o.Judged o.pairValue := by
  unfold pairValue
  split <;> exact o.judged_inCategory rfl rfl _

theorem judged_statementCall (o : Occurrence) : o.Judged o.statementCall := by
  unfold statementCall
  split <;> exact o.judged_inCategory rfl rfl _

theorem judged_specialBlock (o : Occurrence) : o.Judged o.specialBlock := by
  unfold specialBlock
  split
  · exact o.judged_statementCall
  · refine o.judged_declaring ?_ ?_ _ <;> rfl

theorem judged_declaration (o : Occurrence) : o.Judged o.declaration := by
  unfold declaration
  cases o.slot <;> refine o.judged_declaring ?_ ?_ _ <;> rfl

theorem judged_ioHandle (o : Occurrence) : o.Judged o.ioHandle := by
  unfold ioHandle
  split <;> exact ⟨rfl, rfl, rfl, rfl, rfl, rfl, rfl⟩

theorem judged_bareword (o : Occurrence) : o.Judged o.bareword := by
  -- the slots in which a constant of the name comes first
  have referring : ∀ {r : Ruling}, o.Judged r →
      o.Judged (if o.isDeclared .constant then o.constantReference else r) := by
    intro r hr
    split
    · exact o.judged_inCategory rfl rfl _
    · exact hr
  unfold bareword
  dsimp only
  split
  · exact o.judged_containerKey
  · exact referring o.judged_memberAccess
  · exact o.judged_specialBlock
  · exact o.judged_declaration
  · exact o.judged_declaration
  · exact o.judged_declaration
  · exact o.judged_declaration
  · exact referring o.judged_pairValue
  · exact referring o.judged_statementCall
  · exact referring o.judged_ioHandle
  · exact o.judged_inCategory rfl rfl _

/-- A token that is classified is so by the rule of its slot. -/
theorem eq_bareword_of_classify {o : Occurrence} {r : Ruling}
    (h : o.classify = .ok (some r)) : r = o.bareword := by
  unfold classify at h
  split at h
  · rename_i hs
    unfold comparator at h
    split at h
    · cases h
    · split at h
      · cases h
      · cases h
        simp only [bareword, hs]
  · split at h
    · rename_i hl
      cases h
      simp only [Bool.and_eq_true, decide_eq_true_eq] at hl
      simp only [bareword, hl.1]
    · split at h
      · cases h
      · cases h
        rfl

theorem judged_of_classify {o : Occurrence} {r : Ruling} (h : o.classify = .ok (some r)) :
    o.Judged r := eq_bareword_of_classify h ▸ o.judged_bareword

/-! ### The slots in which a word refers to something -/

theorem isDeclared_of_declaredAt {o : Occurrence} {kind : DeclarationKind} {p : Option Position}
    (h : o.declaredAt kind = p) : o.isDeclared kind = p.isSome :=
  (o.isDeclared_eq_isSome kind).trans (congrArg Option.isSome h)

theorem category_memberAccess {o : Occurrence} (h : o.slot = .memberAccess) :
    o.bareword.category =
      if o.isDeclared .constant then .constantReference
      else if o.nextIs Token.isNamespaceSeparator ∨
          o.isDeclared .package ∧ ¬o.isDeclared .callable then .namespaceName
      else .ambiguousCallableOrNamespace := by
  simp only [bareword, h]
  cases o.isDeclared .constant
  · unfold memberAccess
    cases o.nextIs Token.isNamespaceSeparator
    · cases o.isDeclared .package <;> cases o.isDeclared .callable <;> rfl
    · rfl
  · rfl

theorem category_pairValue {o : Occurrence} (h : o.slot = .pairValue) :
    o.bareword.category =
      if o.isDeclared .constant then .constantReference
      else if o.isDeclared .callable then .implicitCall
      else .literalStringLegacy := by
  simp only [bareword, h]
  cases o.isDeclared .constant
  · unfold pairValue
    cases hd : o.declaredAt .callable <;> rw [isDeclared_of_declaredAt hd] <;> rfl
  · rfl

theorem category_statementCall {o : Occurrence} (h : o.slot = .statementCall) :
    o.bareword.category =
      if o.isDeclared .constant then .constantReference
      else if o.isDeclared .callable then .barewordCall
      else .unknownIdentifierError := by
  simp only [bareword, h]
  cases o.isDeclared .constant
  · unfold statementCall
    cases hd : o.declaredAt .callable <;> rw [isDeclared_of_declaredAt hd] <;> rfl
  · rfl

theorem category_ioHandle {o : Occurrence} (h : o.slot = .ioHandle) :
    o.bareword.category =
      if o.isDeclared .constant then .constantReference
      else if o.name ∈ Vocabulary.standardHandles then .standardHandle
      else .legacyGlobalHandle := by
  simp only [bareword, h, ← List.contains_iff_mem]
  cases o.isDeclared .constant
  · unfold ioHandle Vocabulary.isStandardHandle
    cases Vocabulary.standardHandles.contains o.name <;> rfl
  · rfl

/-- A handle of the package names the lexical one that could replace it. -/
theorem rewrite_ioHandle {o : Occurrence} (h : o.slot = .ioHandle)
    (hc : o.bareword.category = .legacyGlobalHandle) :
    o.bareword.rewrite = (o.declaredAt .lexicalHandle).map fun p =>
      s!"use the lexical handle declared at {p.text}: write ${o.name} instead of {o.name}" := by
  simp only [bareword, h] at hc ⊢
  cases hd : o.isDeclared .constant
  · rw [hd] at hc
    unfold ioHandle at hc ⊢
    cases hs : Vocabulary.isStandardHandle o.name
    · rfl
    · rw [hs] at hc
      cases hc
  · rw [hd] at hc
    cases hc

end Occurrence

/-! ### The categories of a slot -/

def Slot.categories : Slot → List Category
  | containerKey => [.literalKey, .evaluatedKey]
  | memberAccess => [.constantReference, .namespaceName, .ambiguousCallableOrNamespace]
  | specialBlock => [.implicitCallableDeclaration, .barewordCall, .unknownIdentifierError]
  | constantDeclaration => [.constantDeclaration]
  | callableDeclaration => [.callableDeclaration]
  | namespaceDeclaration => [.namespaceDeclaration]
  | lexicalHandleDeclaration => [.lexicalHandleDeclaration]
  | pairValue => [.constantReference, .implicitCall, .literalStringLegacy]
  | statementCall => [.constantReference, .barewordCall, .unknownIdentifierError]
  | ioHandle => [.constantReference, .standardHandle, .legacyGlobalHandle]
  | orderingComparator => [.comparatorNameReference]

namespace Occurrence

theorem category_bareword_mem (o : Occurrence) : o.bareword.category ∈ o.slot.categories := by
  -- the slots in which a constant of the name comes first have one more test
  have of_ite : ∀ {p q : Prop} [Decidable p] [Decidable q] {a b c : Category} {l : List Category},
      a ∈ l → b ∈ l → c ∈ l → (if p then a else if q then b else c) ∈ l := by
    intro p q _ _ a b c l ha hb hc
    split
    · exact ha
    · split
      · exact hb
      · exact hc
  cases h : o.slot with
  | memberAccess =>
    rw [category_memberAccess h]
    exact of_ite (by decide) (by decide) (by decide)
  | pairValue =>
    rw [category_pairValue h]
    exact of_ite (by decide) (by decide) (by decide)
  | statementCall =>
    rw [category_statementCall h]
    exact of_ite (by decide) (by decide) (by decide)
  | ioHandle =>
    rw [category_ioHandle h]
    exact of_ite (by decide) (by decide) (by decide)
  | containerKey =>
    simp only [bareword, h, containerKey]
    repeat' split
    all_goals simp [Slot.categories, inCategory]
  | specialBlock =>
    simp only [bareword, h, specialBlock, statementCall]
    repeat' split
    all_goals simp [Slot.categories, inCategory, Ruling.declaring]
  | orderingComparator => simp [bareword, h, comparatorName, inCategory, Slot.categories]
  | _ => simp [bareword, h, declaration, inCategory, Ruling.declaring, Slot.categories]

theorem category_mem_of_classify {o : Occurrence} {r : Ruling}
    (h : o.classify = .ok (some r)) : r.category ∈ o.slot.categories := by
  rw [eq_bareword_of_classify h]
  exact o.category_bareword_mem

end Occurrence

end WordRole
