import WordRole.Proofs.Analysis.Declared
import WordRole.Proofs.Declaration.Firsts

/-!
# Where declarations go

What the classifications of a report declare is either in the table at the end of the run or is told
of in a notice: the first declarations of a name and kind are in the table, and each other one has a
notice that names the first (`Analyzer.declarations_accounted`).  Every step keeps this account
(`Analyzer.accounts_step`).
-/

namespace WordRole

namespace Classification

/-- What a classification declares: its category is that of one kind of declarations, or of none. -/
def declaration? (c : Classification) : Option Declaration :=
  (DeclarationKind.all.find? fun kind => c.category = kind.category).map fun kind =>
    ⟨c.name, kind, c.position⟩

def declarations (cs : List Classification) : List Declaration := cs.filterMap declaration?

theorem declarations_concat (cs : List Classification) (c : Classification) :
    declarations (cs ++ [c]) = declarations cs ++ c.declaration?.toList := by
  unfold declarations
  rw [List.filterMap_append]
  cases h : c.declaration? <;> simp [h]

end Classification

open Classification

theorem Notice.redeclared_eq (r : Redeclaration) : Notice.redeclared r =
    { code := "B0601"
      severity := .info
      message := s!"{r.kind.text} '{r.name}' redeclared at " ++
        s!"{r.position.line}:{r.position.column} (first declared at " ++
        s!"{r.first.line}:{r.first.column})"
      position := r.position } := by
  have htext : ∀ s : String, toString s = s := fun _ => rfl
  unfold redeclared Redeclaration.message Position.text
  simp only [String.append_assoc, htext]

namespace Analyzer

/-- The table holds the first ones of some declarations, and the notices tell of the others. -/
structure AccountsFor (a : Analyzer) (ds : List Declaration) : Prop where
  declared : a.declared = .recordAll .empty ds
  notices : a.findings.notices.filter (·.code = "B0601") =
    (Declaration.repeated ds).map .redeclared

/-- The analyzer accounts for what its classifications declare. -/
def Accounts (a : Analyzer) : Prop := a.AccountsFor (declarations a.findings.classifications)

theorem accounts_start (ts : List SlottedToken) : (start ts []).Accounts := ⟨rfl, rfl⟩

/-! ### One step -/

theorem accountsFor_declare {a : Analyzer} {ds : List Declaration} (h : a.AccountsFor ds)
    (d : Declaration) : (a.declare d).AccountsFor (ds ++ [d]) := by
  refine ⟨?_, ?_⟩
  · rw [declared_declare, h.declared, DeclarationTable.recordAll_concat]
  · have hrecord := DeclarationTable.record_recordAll ds d
    rw [← h.declared] at hrecord
    rw [Declaration.repeated_concat, List.map_append, ← h.notices]
    unfold declare
    cases hr : Declaration.repeats? ds d with
    | none =>
      rw [hr] at hrecord
      rw [hrecord]
      exact (List.append_nil _).symm
    | some r =>
      rw [hr] at hrecord
      rw [hrecord]
      exact List.filter_append _ _

/-- The kind that the rule of the slot has put on a ruling is the one of its category. -/
theorem accounts_add {a : Analyzer} (h : a.Accounts) {t : Token} {slot : Slot} {n : Option Token}
    {r : Ruling} (hr : (a.occurrence t slot n).classify = .ok (some r)) :
    (a.add t r).Accounts := by
  have hjudged := Occurrence.judged_of_classify hr
  have hdeclaration : r.withRewrite.declaration? =
      r.declares.map fun kind => ⟨t.name, kind, t.position⟩ := by
    have hname : r.name = t.name := hjudged.name
    have hposition : r.position = t.position := hjudged.position
    rw [hjudged.declares, ← hname, ← hposition]
    rfl
  unfold Accounts
  rw [classifications_add, declarations_concat, hdeclaration]
  unfold add
  cases r.declares with
  | none =>
    rw [Option.map_none, Option.toList_none, List.append_nil]
    exact ⟨h.declared, h.notices⟩
  | some kind =>
    have hd := accountsFor_declare h ⟨t.name, kind, t.position⟩
    exact ⟨hd.declared, hd.notices⟩

theorem accounts_scanString {a : Analyzer} (h : a.Accounts) (t : Token) :
    (a.scanString t).Accounts := by
  unfold scanString
  split
  · refine ⟨h.declared, Eq.trans ?_ h.notices⟩
    -- constants in strings have notices with another code
    have hno : ((constantsIn a.declared t.text).map
        (Notice.constantInString · t.position)).filter (·.code = "B0601") = [] := by
      simp [Notice.constantInString]
    simp only [Findings.notice, List.filter_append, hno, List.append_nil]
  · exact h

theorem accounts_step {a : Analyzer} (h : a.Accounts) (t : SlottedToken) (n : Option Token) :
    (a.step t n).2.Accounts := by
  obtain ⟨-, hs⟩ | ⟨slot, r, -, hr, hs⟩ | ⟨slot, -, -, hs⟩ | ⟨slot, e, -, -, hs⟩ :=
    a.step_cases t n <;> rw [hs]
  · obtain ⟨hdeclared, hnotices⟩ := accounts_scanString h t.token
    exact ⟨hdeclared, hnotices⟩
  · obtain ⟨hdeclared, hnotices⟩ := accounts_add h hr
    exact ⟨hdeclared, hnotices⟩
  · exact ⟨h.declared, h.notices⟩
  · exact ⟨h.declared, h.notices⟩

/-! ### A whole run -/

theorem accounts_drain (ts : List SlottedToken) : (start ts []).drain.Accounts := by
  obtain ⟨l, hl⟩ := drain_eq_pass (toList_tokens_start ts [])
  have h := pass_invariant (P := Accounts) (fun _ t n _ hb => accounts_step hb t n)
    (accounts_start ts) none ts
  rw [hl]
  exact ⟨h.declared, h.notices⟩

/-- Notices from before change nothing in the table. -/
theorem declared_drain (ts : List SlottedToken) (notices : List Notice) :
    (start ts notices).drain.declared = (start ts []).drain.declared := by
  obtain ⟨l, hl⟩ := drain_eq_pass (toList_tokens_start ts notices)
  obtain ⟨m, hm⟩ := drain_eq_pass (toList_tokens_start ts [])
  rw [hl, hm, start_eq_framed, pass_framed]
  rfl

/-- **Declarations.**  Of what the classifications of a report declare, the first declarations of
each name and kind make up the table at the end, in order; the others are those that the run gives a
notice of, in order, each at its own place and naming the place of the first.  So none is lost, kept
twice or made up. -/
theorem declarations_accounted (ts : List SlottedToken) (notices : List Notice) (unit : String)
    (mode : Mode) :
    let report := (start ts notices).run unit mode
    let kept := (start ts notices).drain.declared.log
    let found := declarations report.classifications
    kept = Declaration.firsts found ∧
    (∃ raised, report.notices = notices ++ raised ∧ raised.filter (·.code = "B0601") =
      (Declaration.repeated found).map fun r =>
        { code := "B0601"
          severity := .info
          message := s!"{r.kind.text} '{r.name}' redeclared at " ++
            s!"{r.position.line}:{r.position.column} (first declared at " ++
            s!"{r.first.line}:{r.first.column})"
          position := r.position }) ∧
    kept.Sublist found ∧ (kept.Pairwise fun d e => ¬e.Same d) ∧
    kept.length + (Declaration.repeated found).length = found.length := by
  intro report kept found
  have haccounts := accounts_drain ts
  have hfound : found = declarations (start ts []).drain.findings.classifications :=
    congrArg (declarations ·.classifications) (run_start ts notices unit mode)
  have hkept : kept = Declaration.firsts found := by
    rw [hfound]
    have hdeclared := (declared_drain ts notices).trans haccounts.declared
    exact (congrArg DeclarationTable.log hdeclared).trans (DeclarationTable.log_recordAll _)
  rw [hkept]
  refine ⟨rfl, ⟨_, congrArg Report.notices (run_start ts notices unit mode), ?_⟩,
    Declaration.firsts_sublist found, Declaration.pairwise_firsts found,
    Declaration.length_firsts_add found⟩
  rw [hfound]
  exact haccounts.notices.trans (List.map_congr_left fun r _ => Notice.redeclared_eq r)

end Analyzer

end WordRole
