import WordRole.Proofs.Analysis.Calls
import WordRole.Proofs.Analysis.Items

/-!
# Stopping and resuming

An analyzer that is stopped after some calls reports what it has found so far, which begins the
report on the whole unit, and goes on to just that report when it is run (`Analyzer.interrupted`).
No more tokens are drawn on the way than the visited ones and one that is looked at.
-/

namespace WordRole

namespace Analyzer

theorem isSome_abort_calls_iff {a : Analyzer} (ha : a.abort = none) (k : Nat) :
    (a.calls k).2.abort.isSome ↔ ∃ e, some (Except.error e) ∈ (a.calls k).1 := by
  obtain ⟨n, hn⟩ := a.exists_advance_calls k
  obtain ⟨l, hl⟩ := advance_eq_pass (a := a) rfl n
  have hitems := congrArg (·.1) (hn.symm.trans hl)
  have hlast := congrArg (·.2) (hn.symm.trans hl)
  dsimp only at hitems hlast
  rw [hlast, abort_withTokens, isSome_abort_pass_iff_error ha, ← hitems]
  simp

/-- **Stopping and resuming.**  After any number of calls, the report so far holds the
classifications that have come out, and begins the report on the whole unit, to which the analyzer
still runs.  With an item, its token has been drawn and the one after it; after an error nothing
more is; with no item and no error, everything has been. -/
theorem interrupted (ts : List SlottedToken) (notices : List Notice) (unit : String) (mode : Mode)
    (k : Nat) :
    let a := start ts notices
    let results := (a.calls k).1
    let b := (a.calls k).2
    let report := b.finish unit mode
    let whole := a.run unit mode
    report.classifications = classified (results.filterMap id) ∧
    report.classifications <+: whole.classifications ∧
    notices <+: report.notices ∧ report.notices <+: whole.notices ∧
    b.run unit mode = whole ∧
    (∀ earlier item, results = earlier ++ [some item] →
      ∃ i t, ts[i]? = some t ∧ Item.IsOf item t ∧ (a.advance i).1 = earlier.filterMap id ∧
        (a.advance i).2.turn? = some (some item, b) ∧ b.Pulled ts (min (i + 2) ts.length)) ∧
    (∀ e, some (Except.error e) ∈ results → ∀ m, b.calls m = (List.replicate m none, b)) ∧
    (none ∈ results → (∀ e, some (Except.error e) ∉ results) → b.Pulled ts ts.length) := by
  intro a results b report whole
  obtain ⟨n, hn⟩ := a.exists_advance_calls k
  have hdrain : b.drain = a.drain := a.drain_calls k
  obtain ⟨-, hclassifications, hnotices⟩ := advance_prefix (a := b) rfl 0
  rw [hdrain] at hclassifications hnotices
  refine ⟨?_, hclassifications, ?_, hnotices, ?_, ?_, ?_, ?_⟩
  · have h := a.classifications_advance n
    rw [hn] at h
    exact h
  · have h := a.notices_advance n
    rw [hn] at h
    exact h
  · show b.drain.finish unit mode = a.drain.finish unit mode
    rw [hdrain]
  · intro earlier item hitem
    obtain ⟨i, hearlier, hturn⟩ := exists_turn_of_calls hitem
    obtain ⟨hi, hpulled⟩ := tokens_of_item hturn
    obtain ⟨t, rest, habort, hl, hstep, -⟩ := exists_step_of_turn? hturn
    have hdrop : t :: rest = ts.drop i := by
      rw [← hl]
      exact toList_tokens_advance (by rw [hturn]; exact Option.some_ne_none _)
    have ht : ts[i]? = some t := by
      rw [← List.head?_drop, ← hdrop]
      rfl
    exact ⟨i, t, ht, isOf_of_step habort hstep.symm, hearlier, hturn, hpulled⟩
  · intro e he m
    have habort : b.abort.isSome := (isSome_abort_calls_iff rfl k).mpr ⟨e, he⟩
    exact calls_of_turn?_none (turn?_of_abort habort) m
  · intro hnone hno
    have habort : b.abort = none := by
      rw [← Option.not_isSome_iff_eq_none, isSome_abort_calls_iff rfl k]
      exact fun ⟨e, he⟩ => hno e he
    have hsource := source_of_turn?_none habort (turn?_of_none_mem hnone)
    exact ⟨Nat.le_refl _, by rw [hsource, List.drop_length]⟩

end Analyzer

end WordRole
