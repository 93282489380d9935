import WordRole.Proofs.Report.Outcome

/-!
# What a finding carries

The parts of a finding are chosen apart from each other: the rule of the slot gives a category and
a level, the category a code, and the report a rewrite where the rule gave none.  They agree, and
whatever is not accepted comes with a rewrite (`Analyzer.findings_actionable`).

* `Category.isSome_rewrite?_iff`: which categories have a rewrite;
* `Classification.isFatal_iff_category`: which categories are fatal.
-/

namespace WordRole

/-! ### Categories -/

theorem Category.level_eq_ambiguousRequiresRewrite_iff {c : Category} :
    c.level = .ambiguousRequiresRewrite ↔
      c = .ambiguousCallableOrNamespace ∨ c = .implicitCall ∨ c = .unknownIdentifierError := by
  cases c <;> decide

theorem Category.isConstant_iff {c : Category} :
    c.isConstant = true ↔ c = .constantDeclaration ∨ c = .constantReference := by
  simp [isConstant]

/-- A rewrite is proposed for just those categories that are not accepted. -/
theorem Category.isSome_rewrite?_iff (c : Category) (name : String) :
    (c.rewrite? name).isSome = true ↔ c.level.group ≠ .accepted := by
  cases c <;> simp [rewrite?, level, AmbiguityLevel.group]

/-! ### Findings -/

namespace Classification

/-- A finding that agrees with its category, and says what to write instead if it is not simply
accepted. -/
structure Actionable (c : Classification) : Prop where
  code : c.code = c.category.code
  level : c.level = c.category.level
  fatal : c.isFatal = true ↔ c.category = .ambiguousCallableOrNamespace ∨
    c.category = .implicitCall ∨ c.category = .unknownIdentifierError
  nonInterpolating : c.nonInterpolating = true ↔
    c.category = .constantDeclaration ∨ c.category = .constantReference
  rewrite : c.group ≠ .accepted → c.rewrite.isSome = true

theorem isFatal_iff_category {c : Classification} (h : c.level = c.category.level) :
    c.isFatal = true ↔ c.category = .ambiguousCallableOrNamespace ∨
      c.category = .implicitCall ∨ c.category = .unknownIdentifierError := by
  rw [isFatal_iff_of_level h, h]
  exact Category.level_eq_ambiguousRequiresRewrite_iff

/-- What the report completes has a rewrite, by the rule or by the category. -/
theorem isSome_rewrite_withRewrite {c : Classification} (h : c.level = c.category.level)
    (hgroup : c.group ≠ .accepted) : c.withRewrite.rewrite.isSome = true := by
  have hdefault : (c.category.rewrite? c.name).isSome = true := by
    rw [Category.isSome_rewrite?_iff, ← h]
    exact hgroup
  unfold withRewrite
  rw [Option.isSome_or, hdefault, Bool.or_true]

end Classification

/-- A judgement is actionable once the report has completed it. -/
theorem Occurrence.Judged.actionable {o : Occurrence} {c : Ruling} (h : o.Judged c) :
    c.withRewrite.Actionable where
  code := h.code
  level := h.level
  fatal := Classification.isFatal_iff_category (c := c.withRewrite) h.level
  nonInterpolating := by
    rw [← Category.isConstant_iff]
    exact iff_of_eq (congrArg (· = true) h.nonInterpolating)
  rewrite := Classification.isSome_rewrite_withRewrite h.level

namespace Analyzer

/-- **Findings.**  Every finding of a report has the code and the level of its category, by whatever
rule it was judged.  Three categories are fatal, two are not interpolated, and each finding that is
not simply accepted has a rewrite. -/
theorem findings_actionable (ts : List SlottedToken) (notices : List Notice) (unit : String)
    (mode : Mode) : ∀ c ∈ ((start ts notices).run unit mode).classifications, c.Actionable := by
  intro c hc
  obtain ⟨o, d, hd, rfl⟩ := exists_classify_of_mem_run hc
  exact (Occurrence.judged_of_classify hd).actionable

/-- `f;` -/
def undeclaredCall : List SlottedToken :=
  [⟨⟨.identifier, "f", ⟨1, 1⟩⟩, some .statementCall⟩, ⟨⟨.punctuation, ";", ⟨1, 2⟩⟩, none⟩]

/-- The call of a subroutine that is not declared is fatal and has a rewrite. -/
theorem findings_actionable_of_undeclaredCall :
    ∃ c ∈ ((start undeclaredCall []).run "u" .strict).classifications,
      c.isFatal = true ∧ c.rewrite.isSome = true := by
  have hmem : (Occurrence.bareword ⟨⟨.identifier, "f", ⟨1, 1⟩⟩, .statementCall, none,
      some ⟨.punctuation, ";", ⟨1, 2⟩⟩, .empty⟩).withRewrite ∈
      ((start undeclaredCall []).run "u" .strict).classifications := by
    rw [run_eq_finish_pass]
    exact List.mem_cons_self
  have hc := findings_actionable undeclaredCall [] "u" .strict _ hmem
  exact ⟨_, hmem, hc.fatal.mpr (.inr (.inr rfl)), hc.rewrite (by decide)⟩

end Analyzer

end WordRole
