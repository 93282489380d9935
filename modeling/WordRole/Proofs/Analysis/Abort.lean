import WordRole.Proofs.Analysis.Calls
import WordRole.Proofs.Analysis.Items
import WordRole.Report.Written

/-!
# What a fault does

A pass is stopped by the first token that stands in the place of a comparator and cannot be one, and
by nothing else (`Analyzer.first_fault_aborts`).  All that was found before it is in the report, and
nothing after it makes a difference.
-/

namespace WordRole

theorem InvalidComparator.toJson_eq (e : InvalidComparator) :
    e.toJson = .record [("code", .text "B0502"),
      ("message", .text (s!"invalid ordering operand '{e.text}' at " ++
        s!"{e.position.line}:{e.position.column}: the comparator of sort must be " ++
        "a subroutine name, a block, or a scalar holding a code reference")),
      ("position", .record [("line", .nat e.position.line),
        ("column", .nat e.position.column)])] := by
  have htext : ∀ s : String, toString s = s := fun _ => rfl
  unfold toJson message code Position.text Position.toJson
  simp only [String.append_assoc, htext]

namespace Analyzer

section Fault

variable {before : List SlottedToken} {t : SlottedToken}
  (hb : ∀ u ∈ before, u.isFault = false) (ht : t.isFault = true) (notices : List Notice)

include hb ht

theorem run_of_isFault (after : List SlottedToken) (unit : String) (mode : Mode) :
    (start (before ++ t :: after) notices).run unit mode =
      ⟨unit, mode, .aborted,
        ((start [] notices).pass (some t.token) before).2.findings.classifications,
        ((start [] notices).pass (some t.token) before).2.findings.notices, some t.fault⟩ := by
  rw [run_eq_finish_pass, pass_of_isFault rfl hb ht, pass_start []]
  rfl

theorem remaining_of_isFault (after : List SlottedToken) :
    (start (before ++ t :: after) notices).remaining =
      ((start (before ++ t :: after) notices).advance before.length).1 ++ [.error t.fault] := by
  obtain ⟨l, hl⟩ := advance_before (toList_tokens_start (before ++ t :: after) notices)
  rw [remaining, toList_tokens_start, pass_of_isFault rfl hb ht, hl]

end Fault

/-- **The first fault.**  Where no token is a fault, no call gives an error and the report has none.
Otherwise the classifications of the tokens before the first one come out, then the error and then
nothing; the report keeps what was found until then, and is the same whatever tokens follow.  Its
record of the fault has a code of its own, the text of the token in the message, and the place. -/
theorem first_fault_aborts (ts : List SlottedToken) (notices : List Notice) (unit : String)
    (mode : Mode) :
    let a := start ts notices
    let report := a.run unit mode
    match ts.findIdx? (·.isFault) with
    | none => (∀ k e, some (Except.error e) ∉ (a.calls k).1) ∧ report.abort = none
    | some i => ∃ t, ts[i]? = some t ∧
      let error : InvalidComparator := ⟨t.token.text, t.token.position⟩
      let seen := a.advance i
      seen.1 = seen.2.findings.classifications.map .ok ∧
      (∀ k, (a.calls k).1 = ((seen.1 ++ [Except.error error]).map some).take k ++
        List.replicate (k - (seen.1.length + 1)) none) ∧
      report = ⟨unit, mode, .aborted, seen.2.findings.classifications, seen.2.findings.notices,
        some error⟩ ∧
      error.toJson = .record [("code", .text "B0502"),
        ("message", .text (s!"invalid ordering operand '{t.token.text}' at " ++
          s!"{t.token.position.line}:{t.token.position.column}: the comparator of sort must be " ++
          "a subroutine name, a block, or a scalar holding a code reference")),
        ("position", .record [("line", .nat t.token.position.line),
          ("column", .nat t.token.position.column)])] ∧
      ∀ after, (start (ts.take (i + 1) ++ after) notices).run unit mode = report := by
  intro a report
  cases hfind : ts.findIdx? (·.isFault) with
  | none =>
    have hno : ∀ t ∈ ts, t.isFault = false := by simpa using List.findIdx?_eq_none_iff.mp hfind
    obtain ⟨hitems, -⟩ := forall₂_items (a := a) rfl hno none
    have hremaining : a.remaining = (classified (a.pass none ts).1).map .ok := hitems
    refine ⟨fun k e he => ?_, ?_⟩
    · rw [calls_eq, hremaining] at he
      rcases List.mem_append.mp he with he | he
      · have he := List.mem_of_mem_take he
        simp at he
      · cases (List.mem_replicate.mp he).2
    · show (a.run unit mode).abort = none
      rw [run_eq_finish_pass]
      exact abort_pass_of_not_isFault rfl hno none
  | some i =>
    obtain ⟨hi, ht, hbefore⟩ := List.findIdx?_eq_some_iff_getElem.mp hfind
    -- the source around the fault
    obtain ⟨before, t, after, rfl, rfl⟩ : ∃ before t after, ts = before ++ t :: after ∧
        i = before.length := ⟨ts.take i, ts[i], ts.drop (i + 1), by simp, by simp; omega⟩
    have ht : t.isFault = true := by simpa using ht
    have hb : ∀ u ∈ before, u.isFault = false := by
      intro u hu
      obtain ⟨j, hj, rfl⟩ := List.getElem_of_mem hu
      have := hbefore j hj
      rw [List.getElem_append_left hj] at this
      simpa using this
    obtain ⟨l, hl⟩ := advance_before (toList_tokens_start (before ++ t :: after) notices)
    have hseen : (a.advance before.length).2.findings =
        ((start [] notices).pass (some t.token) before).2.findings := by
      rw [hl, pass_start []]
      rfl
    refine ⟨t, by simp, ?_, fun k => ?_, ?_, InvalidComparator.toJson_eq _, fun more => ?_⟩
    · obtain ⟨hitems, -⟩ := forall₂_items (a := a) rfl hb (some t.token)
      rw [hl, findings_withTokens, classifications_pass]
      exact hitems
    · rw [calls_eq, remaining_of_isFault hb ht, List.length_append]
      rfl
    · rw [hseen]
      exact run_of_isFault hb ht notices after unit mode
    · have htake : (before ++ t :: after).take (before.length + 1) ++ more =
          before ++ t :: more := by
        rw [List.take_length_add_append, List.take_succ_cons, List.take_zero, List.append_assoc]
        rfl
      rw [htake, run_of_isFault hb ht]
      exact (run_of_isFault hb ht notices after unit mode).symm

end Analyzer

end WordRole
