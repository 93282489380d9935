import WordRole.Proofs.Analysis.Step
import WordRole.Proofs.Classification.Rules

/-!
# Modes and outcomes

The mode of a report is asked for only when the outcome is decided, and there only to fail a unit
with a fatal finding or to advise on it (`Analyzer.mode_decides_outcome`):

* `Findings.outcome_eq_failed_iff`, `Findings.outcome_eq_clean_iff`: when a unit fails, and when
  there is nothing to say about it;
* `Analyzer.level_of_mem_run`: what a report holds has the level of its category, so that a fatal
  finding is always a flagged one.
-/

namespace WordRole

/-! ### The level of a classification -/

theorem AmbiguityLevel.group_ne_flagged_iff {l : AmbiguityLevel} :
    l.group ≠ .flagged ↔ l = .unambiguous ∨ l = .conventionalButRisky := by
  cases l <;> decide

/-- A finding with the level of its category is fatal just when that is the highest one. -/
theorem Classification.isFatal_iff_of_level {c : Classification}
    (h : c.level = c.category.level) : c.isFatal = true ↔ c.level = .ambiguousRequiresRewrite := by
  have herror : c.category.isError = true → c.category.level = .ambiguousRequiresRewrite := by
    cases c.category <;> decide
  unfold isFatal
  rw [Bool.or_eq_true, decide_eq_true_iff, h]
  exact or_iff_left_of_imp herror

namespace Analyzer

/-- Every classification of a report has been given by the rules and completed with a rewrite. -/
theorem exists_classify_of_mem_run {ts : List SlottedToken} {notices : List Notice}
    {unit : String} {mode : Mode} {c : Classification}
    (h : c ∈ ((start ts notices).run unit mode).classifications) :
    ∃ o d, Occurrence.classify o = .ok (some d) ∧ c = d.withRewrite := by
  obtain ⟨pre, post, hsplit⟩ := List.append_of_mem h
  obtain ⟨before, t, after, -, -, hstep⟩ := exists_step_of_run hsplit
  obtain ⟨slot, d, -, hd, hc⟩ := exists_classify_of_step hstep
  exact ⟨_, d, hd, hc⟩

theorem level_of_mem_run {ts : List SlottedToken} {notices : List Notice} {unit : String}
    {mode : Mode} {c : Classification}
    (h : c ∈ ((start ts notices).run unit mode).classifications) : c.level = c.category.level := by
  obtain ⟨o, d, hd, rfl⟩ := exists_classify_of_mem_run h
  exact (Occurrence.judged_of_classify hd).level

end Analyzer

/-! ### The outcome of findings -/

namespace Findings

variable {f : Findings} {mode : Mode} {abort : Option InvalidComparator}

theorem outcome_eq_aborted_iff : f.outcome mode abort = .aborted ↔ abort.isSome = true := by
  unfold outcome
  dsimp only
  cases abort with
  | some e => simp
  | none =>
    simp only [Option.isSome_none, Bool.false_eq_true, if_false, iff_false]
    split
    · simp
    · split <;> simp

theorem outcome_eq_failed_iff : f.outcome mode abort = .failed ↔
    mode = .strict ∧ abort = none ∧ ∃ c ∈ f.classifications, c.isFatal = true := by
  unfold outcome
  dsimp only
  cases abort with
  | some e => simp
  | none =>
    simp only [Option.isSome_none, Bool.false_eq_true, if_false, Bool.and_eq_true,
      decide_eq_true_eq, List.any_eq_true, true_and]
    split
    · rename_i h
      exact iff_of_true rfl h.symm
    · rename_i h
      rw [and_comm, iff_false_right h]
      split <;> simp

theorem outcome_eq_clean_iff : f.outcome mode abort = .clean ↔
    abort = none ∧ ∀ c ∈ f.classifications, c.isFatal = false ∧ c.group ≠ .flagged := by
  unfold outcome
  dsimp only
  cases abort with
  | some e => simp
  | none =>
    cases hfatal : f.classifications.any (·.isFatal)
    · -- no finding is fatal, so that the mode is not asked for
      have hno : ∀ c ∈ f.classifications, c.isFatal = false := by simpa using hfatal
      simp +contextual [hno]
    · obtain ⟨c, hc, hf⟩ := List.any_eq_true.mp hfatal
      refine iff_of_false ?_ fun h => ?_
      · cases mode <;> simp
      · rw [(h.2 c hc).1] at hf
        cases hf

/-- Where a strict report does not fail, a permissive one has the same outcome. -/
theorem outcome_permissive_of_ne_failed (h : f.outcome .strict abort ≠ .failed) :
    f.outcome .permissive abort = f.outcome .strict abort := by
  cases abort with
  | some e => rfl
  | none =>
    have hfatal : f.classifications.any (·.isFatal) = false := by
      rw [Bool.eq_false_iff, ne_eq, List.any_eq_true]
      exact fun hf => h (outcome_eq_failed_iff.mpr ⟨rfl, rfl, hf⟩)
    simp [outcome, hfatal]

/-- Where a strict report fails, a permissive one is advice. -/
theorem outcome_permissive_of_failed (h : f.outcome .strict abort = .failed) :
    f.outcome .permissive abort = .advisory := by
  obtain ⟨-, rfl, hfatal⟩ := outcome_eq_failed_iff.mp h
  simp [outcome, hfatal]

end Findings

/-! ### Reports in both modes -/

namespace Analyzer

/-- **Modes.**  In both modes a run finds the same.  A permissive report never fails; a strict one
fails just when it reaches the end with a fatal finding, on which the permissive one advises.  Else
the outcomes are the same, and at the end of a unit they are clean just when nothing is flagged. -/
theorem mode_decides_outcome (ts : List SlottedToken) (notices : List Notice) (unit : String) :
    let strict := (start ts notices).run unit .strict
    let permissive := (start ts notices).run unit .permissive
    strict.classifications = permissive.classifications ∧ strict.notices = permissive.notices ∧
    strict.abort = permissive.abort ∧ permissive.outcome ≠ .failed ∧
    (strict.outcome = .failed ↔
      strict.abort = none ∧ ∃ c ∈ strict.classifications, c.isFatal = true) ∧
    (strict.outcome = .failed → permissive.outcome = .advisory) ∧
    (strict.outcome ≠ .failed → permissive.outcome = strict.outcome ∧
      (strict.abort = none → (strict.outcome = .clean ↔ ∀ c ∈ strict.classifications,
        c.level = .unambiguous ∨ c.level = .conventionalButRisky))) := by
  intro strict permissive
  refine ⟨rfl, rfl, rfl, ?_, ?_, Findings.outcome_permissive_of_failed, fun h =>
    ⟨Findings.outcome_permissive_of_ne_failed h, fun habort => ?_⟩⟩
  · intro h
    cases (Findings.outcome_eq_failed_iff.mp h).1
  · exact Findings.outcome_eq_failed_iff.trans (and_iff_right rfl)
  · refine Findings.outcome_eq_clean_iff.trans ((and_iff_right habort).trans ?_)
    refine forall₂_congr fun c hc => ?_
    have hlevel := level_of_mem_run (show c ∈ strict.classifications from hc)
    rw [← AmbiguityLevel.group_ne_flagged_iff]
    refine and_iff_right_of_imp fun hgroup => ?_
    rw [Bool.eq_false_iff, ne_eq, Classification.isFatal_iff_of_level hlevel]
    intro hfatal
    exact hgroup (congrArg AmbiguityLevel.group hfatal)

end Analyzer

end WordRole
