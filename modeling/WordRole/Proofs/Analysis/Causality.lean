import WordRole.Proofs.Analysis.Step

/-!
# One token of lookahead

What the pass does at a token is settled by the tokens up to the next one:

* `advance_congr`: two streams that agree on their first tokens give the same items, findings,
  declarations and fault while all of these but the last are visited;
* `Analyzer.causal`: hence the same reports up to there, which are the beginnings of the reports on
  the whole streams, so that no later declaration changes an earlier classification.
-/

namespace WordRole

namespace Analyzer

/-! ### Notices are only added -/

theorem notices_declare (a : Analyzer) (d : Declaration) :
    a.findings.notices <+: (a.declare d).findings.notices := by
  unfold declare
  cases a.declared.record d with
  | ok t => exact List.prefix_rfl
  | error r => exact List.prefix_append _ _

theorem notices_step (a : Analyzer) (t : SlottedToken) (n : Option Token) :
    a.findings.notices <+: (a.step t n).2.findings.notices := by
  obtain ⟨-, h⟩ | ⟨slot, r, -, -, h⟩ | ⟨slot, -, -, h⟩ | ⟨slot, e, -, -, h⟩ := a.step_cases t n <;>
    rw [h]
  · simp only [scanString]
    split
    · exact List.prefix_append _ _
    · exact List.prefix_rfl
  · simp only [add]
    cases r.declares with
    | none => exact List.prefix_rfl
    | some kind => exact notices_declare a _
  · exact List.prefix_rfl
  · exact List.prefix_rfl

theorem notices_pass (a : Analyzer) (next : Option Token) (ts : List SlottedToken) :
    a.findings.notices <+: (a.pass next ts).2.findings.notices :=
  pass_invariant (P := fun b => a.findings.notices <+: b.findings.notices)
    (fun b t n _ hb => hb.trans (notices_step b t n)) List.prefix_rfl next ts

/-! ### The beginning of a pass -/

theorem advance_prefix {a : Analyzer} {ts : List SlottedToken} (h : a.tokens.toList = ts)
    (n : Nat) :
    (a.advance n).1 <+: (a.take ts.length).1 ∧
    (a.advance n).2.findings.classifications <+: a.drain.findings.classifications ∧
    (a.advance n).2.findings.notices <+: a.drain.findings.notices := by
  obtain ⟨l, hl⟩ := advance_eq_pass h n
  obtain ⟨m, hm⟩ := drain_eq_pass h
  have hd : ((ts.drop n).head?.map (·.token)).or none = ts[n]?.map (·.token) := by
    rw [Option.or_none, List.head?_drop]
  have hp := a.pass_append none (ts.take n) (ts.drop n) hd
  rw [List.take_append_drop] at hp
  rw [hl, hm, take_eq_pass h, List.take_of_length_le (length_items_le a none ts), hp]
  refine ⟨List.prefix_append _ _, ?_, ?_⟩
  · simp only [findings_withTokens, classifications_pass _ none (ts.drop n)]
    exact List.prefix_append _ _
  · simp only [findings_withTokens]
    exact notices_pass _ none (ts.drop n)

/-! ### Two streams -/

theorem advance_congr {xs ys : List SlottedToken} {n : Nat} (h : xs.take (n + 1) = ys.take (n + 1))
    (notices : List Notice) :
    ∃ l, (start ys notices).advance n =
      (((start xs notices).advance n).1, ((start xs notices).advance n).2.withTokens l) := by
  have ht : ys.take n = xs.take n := by
    have := congrArg (List.take n) h
    simpa [List.take_take] using this.symm
  have hn : ys[n]? = xs[n]? := by
    have := congrArg (·[n]?) h
    simpa [List.getElem?_take] using this.symm
  obtain ⟨l, hl⟩ := advance_eq_pass (toList_tokens_start xs notices) n
  obtain ⟨m, hm⟩ := advance_eq_pass (toList_tokens_start ys notices) n
  have hs : start ys notices = (start xs notices).withTokens (.ofList ys) := rfl
  rw [ht, hn, hs, pass_withTokens, withTokens_withTokens] at hm
  exact ⟨m, by rw [hs, hm, hl]; rfl⟩

/-- **Causality.**  Streams that agree on their first `n + 1` tokens give the same items and the
same report while the first `n` of them are visited, in either mode.  These items and findings
begin those of both whole streams. -/
theorem causal {xs ys : List SlottedToken} {n : Nat} (h : xs.take (n + 1) = ys.take (n + 1))
    (notices : List Notice) (unit : String) (mode : Mode) :
    let a := (start xs notices).advance n
    let b := (start ys notices).advance n
    a.1 = b.1 ∧ a.2.finish unit mode = b.2.finish unit mode ∧
      ∀ zs ∈ [xs, ys],
        a.1 <+: ((start zs notices).take zs.length).1 ∧
        a.2.findings.classifications <+: ((start zs notices).run unit mode).classifications ∧
        a.2.findings.notices <+: ((start zs notices).run unit mode).notices := by
  obtain ⟨l, hl⟩ := advance_congr h notices
  dsimp only
  refine ⟨by rw [hl], by rw [hl]; rfl, fun zs hz => ?_⟩
  obtain rfl | rfl : zs = xs ∨ zs = ys := by simpa using hz
  · exact advance_prefix (toList_tokens_start zs notices) n
  · have hp := advance_prefix (toList_tokens_start zs notices) n
    rw [hl] at hp
    exact hp

/-- a value after a fat comma and the end of its statement -/
def valueStatement : List SlottedToken :=
  [⟨⟨.identifier, "f", ⟨1, 6⟩⟩, some .pairValue⟩, ⟨⟨.punctuation, ";", ⟨1, 7⟩⟩, none⟩]

/-- the same with a subroutine of the value's name after it -/
def valueBeforeDeclaration : List SlottedToken :=
  valueStatement ++ [⟨⟨.identifier, "f", ⟨2, 5⟩⟩, some .callableDeclaration⟩]

/-- The value is judged the same whether or not the subroutine follows. -/
theorem causal_before_declaration :
    valueStatement.take 2 = valueBeforeDeclaration.take 2 ∧
    ((start valueStatement []).advance 1).1 = ((start valueBeforeDeclaration []).advance 1).1 ∧
    ((start valueStatement []).advance 1).2.findings.classifications <+:
      ((start valueBeforeDeclaration []).run "u" .strict).classifications := by
  have h : valueStatement.take (1 + 1) = valueBeforeDeclaration.take (1 + 1) := rfl
  have hc := causal h [] "u" .strict
  exact ⟨h, hc.1, (hc.2.2 valueBeforeDeclaration (by simp)).2.1⟩

end Analyzer

end WordRole
