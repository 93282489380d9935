import Mathlib.Data.List.TakeWhile
import WordRole.Proofs.Report.Outcome
import WordRole.Report.Rendered

/-!
# Errors in print

The outcome of a report, the word that an entry starts with and the choice of entries that are shown
are decided apart from each other.  They agree on what an error is (`Analyzer.errors_rendered`),
because what a report holds has the level of its category.

* `Text.prefix_trimEnd`: trimming keeps what ends in a character that is not blank;
* `Classification.tellsError_entry_iff`: which classifications are printed as errors;
* `InvalidComparator.tellsError_entry`: a fault always is.
-/

namespace WordRole

/-! ### The beginning of an entry -/

theorem Text.prefix_trimEnd {front : List Char} {s : String} (h : front <+: s.toList)
    (hlast : ∀ c ∈ front.getLast?, isBlank c = false) : front <+: (trimEnd s).toList := by
  obtain ⟨rest, hs⟩ := h
  have hfront : front.reverse.dropWhile isBlank = front.reverse := by
    rw [List.dropWhile_eq_self_iff]
    intro hlength
    have hne : front ≠ [] := by simpa [List.length_pos_iff] using hlength
    have hblank := hlast (front.getLast hne) (List.getLast?_eq_some_getLast hne)
    simpa [List.getLast_eq_getElem] using hblank
  rw [trimEnd, String.toList_ofList, ← hs, List.reverse_append, List.dropWhile_append, hfront]
  split
  · simp
  · rw [List.reverse_append, List.reverse_reverse]
    exact List.prefix_append front _

/-- Whether an entry is marked as an error. -/
def TellsError (entry : String) : Prop := "error[".toList <+: entry.toList

namespace Classification

variable {c : Classification} {mode : Mode}

theorem label_eq_error_iff : c.label mode = "error" ↔ c.isFatal = true ∧ mode = .strict := by
  unfold label
  cases c.isFatal
  · cases c.level <;> simp
  · cases mode <;> simp

theorem label_mem (c : Classification) (mode : Mode) :
    c.label mode ∈ ["error", "warning", "info", "note"] := by
  unfold label
  split
  · cases mode <;> simp
  · cases c.level <;> simp

theorem label_prefix_entry (c : Classification) (unit : String) (mode : Mode) :
    (c.label mode ++ "[").toList <+: (c.entry unit mode).toList := by
  refine Text.prefix_trimEnd ?_ ?_
  · simp [String.append_assoc, toString]
  · simp
    decide

/-- A classification is printed as an error just when it fails its unit. -/
theorem tellsError_entry_iff (unit : String) :
    TellsError (c.entry unit mode) ↔ c.isFatal = true ∧ mode = .strict := by
  rw [← label_eq_error_iff]
  have hlabel := label_prefix_entry c unit mode
  constructor
  · intro h
    -- of two beginnings of one text one begins the other, and no label begins another
    have hboth := List.prefix_or_prefix_of_prefix h hlabel
    have hmem := label_mem c mode
    revert hboth hmem
    generalize c.label mode = label
    simp only [List.mem_cons, List.not_mem_nil, or_false]
    rintro hboth (rfl | rfl | rfl | rfl)
    · rfl
    all_goals exact absurd hboth (by decide)
  · intro h
    rw [h] at hlabel
    exact hlabel

end Classification

theorem InvalidComparator.tellsError_entry (e : InvalidComparator) (unit : String) :
    TellsError (e.entry unit) := by
  simp [TellsError, entry, String.append_assoc, toString]

/-! ### Reports -/

namespace Analyzer

/-- What fails a unit is never accepted, so that it is shown in any case. -/
theorem group_ne_accepted_of_mem_fatal {ts : List SlottedToken} {notices : List Notice}
    {unit : String} {mode : Mode} {c : Classification}
    (h : c ∈ ((start ts notices).run unit mode).fatal) : c.group ≠ .accepted := by
  obtain ⟨hmem, hfatal⟩ := List.mem_filter.mp h
  rw [Classification.isFatal_iff_of_level (level_of_mem_run hmem)] at hfatal
  rw [Classification.group, hfatal]
  decide

/-- **Errors.**  In the text of a report some classification or the fault is marked as an error just
when the report is a failure, whether or not all entries are asked for.  What is fatal has its entry
in any case. -/
theorem errors_rendered (ts : List SlottedToken) (notices : List Notice) (unit : String)
    (mode : Mode) (verbose : Bool) :
    let report := (start ts notices).run unit mode
    let judged := (report.classifications.filter fun c => verbose || c.group != .accepted).map
      (·.entry unit mode)
    let stopped := (report.abort.map (·.entry unit)).toList
    report.render verbose = "\n".intercalate
      (judged ++ report.notices.map (·.entry unit) ++ stopped ++ [report.tally]) ∧
    ((∃ entry ∈ judged ++ stopped, TellsError entry) ↔ report.isFailure = true) ∧
    ∀ c ∈ report.fatal, c.entry unit mode ∈ judged := by
  intro report judged stopped
  have hshown : ∀ c ∈ report.fatal, c.entry unit mode ∈ judged := by
    intro c hc
    have hgroup := group_ne_accepted_of_mem_fatal hc
    refine List.mem_map_of_mem (List.mem_filter.mpr ⟨(List.mem_filter.mp hc).1, ?_⟩)
    simp [hgroup]
  have hfailed : report.outcome = .failed ↔
      mode = .strict ∧ report.abort = none ∧ ∃ c ∈ report.classifications, c.isFatal = true :=
    Findings.outcome_eq_failed_iff
  have haborted : report.outcome = .aborted ↔ report.abort.isSome = true :=
    Findings.outcome_eq_aborted_iff
  refine ⟨rfl, ?_, hshown⟩
  rw [Report.isFailure, Bool.or_eq_true, decide_eq_true_iff, decide_eq_true_iff, hfailed, haborted]
  constructor
  · rintro ⟨entry, hentry, herror⟩
    rcases List.mem_append.mp hentry with hjudged | hstopped
    · obtain ⟨c, hc, rfl⟩ := List.mem_map.mp hjudged
      obtain ⟨hfatal, hmode⟩ := (Classification.tellsError_entry_iff unit).mp herror
      cases habort : report.abort with
      | none => exact .inl ⟨hmode, rfl, c, (List.mem_filter.mp hc).1, hfatal⟩
      | some e => exact .inr rfl
    · obtain ⟨e, he, -⟩ := Option.map_eq_some_iff.mp (Option.mem_toList.mp hstopped)
      exact .inr (Option.isSome_iff_exists.mpr ⟨e, he⟩)
  · rintro (⟨hmode, -, c, hc, hfatal⟩ | habort)
    · exact ⟨_, List.mem_append_left _ (hshown c (List.mem_filter.mpr ⟨hc, hfatal⟩)),
        (Classification.tellsError_entry_iff unit).mpr ⟨hfatal, hmode⟩⟩
    · obtain ⟨e, he⟩ := Option.isSome_iff_exists.mp habort
      exact ⟨e.entry unit, List.mem_append_right _ (by simp [stopped, he]), e.tellsError_entry unit⟩

end Analyzer

end WordRole
