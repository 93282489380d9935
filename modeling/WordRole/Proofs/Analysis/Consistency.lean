import WordRole.Proofs.Analysis.Declared
import WordRole.Proofs.Classification.Rules

/-!
# A report agrees with itself

What a word that refers to something is judged to be can be read off the report: from the
classifications before it, and from the token after it (`Classification.AgreesWith`).

* `agreesWith_of_classify`: the rules agree with what is declared in the table;
* `Analyzer.report_agrees`: every classification of a report agrees with those before it.
-/

namespace WordRole

namespace Classification

/-- A kind is declared for a name when an earlier classification of the name declares it. -/
def Declares (earlier : List Classification) (name : String) (kind : DeclarationKind) : Prop :=
  ∃ d ∈ earlier, d.name = name ∧ d.category = kind.category

instance (earlier : List Classification) (name : String) (kind : DeclarationKind) :
    Decidable (Declares earlier name kind) :=
  inferInstanceAs (Decidable (∃ d ∈ earlier, _))

/-- the advice to use a lexical handle of the same name, if one is declared earlier -/
def handleAdvice (earlier : List Classification) (name : String) : Option String :=
  (declaredAt? earlier name .lexicalHandle).map fun p =>
    s!"use the lexical handle declared at {p.text}: write ${name} instead of {name}"

/-- A word that refers to something has the category that the classifications before it, and the
token after it, ask for. -/
def AgreesWith (c : Classification) (earlier : List Classification) (next : Option Token) : Prop :=
  let declared := Declares earlier c.name
  match c.slot with
  | .pairValue => c.category =
      if declared .constant then .constantReference
      else if declared .callable then .implicitCall
      else .literalStringLegacy
  | .statementCall => c.category =
      if declared .constant then .constantReference
      else if declared .callable then .barewordCall
      else .unknownIdentifierError
  | .memberAccess => c.category =
      if declared .constant then .constantReference
      else if next.any (·.isPunctuation "::") ∨ declared .package ∧ ¬declared .callable then
        .namespaceName
      else .ambiguousCallableOrNamespace
  | .ioHandle =>
    (c.category =
      if declared .constant then .constantReference
      else if c.name ∈ ["STDIN", "STDOUT", "STDERR"] then .standardHandle
      else .legacyGlobalHandle) ∧
    (c.category = .legacyGlobalHandle → c.rewrite =
      (handleAdvice earlier c.name).or (Category.legacyGlobalHandle.rewrite? c.name))
  | _ => True

/-! ### The rules -/

theorem isSome_declaredAt?_iff_declares {earlier : List Classification} {name : String}
    {kind : DeclarationKind} :
    (declaredAt? earlier name kind).isSome ↔ Declares earlier name kind := isSome_declaredAt?_iff

end Classification

open Classification

theorem agreesWith_of_classify {o : Occurrence} {c : Ruling}
    {earlier : List Classification}
    (hd : ∀ name kind, o.declared.first? name kind = declaredAt? earlier name kind)
    (h : o.classify = .ok (some c)) : c.withRewrite.AgreesWith earlier o.next := by
  obtain ⟨hn, hs, -⟩ := Occurrence.judged_of_classify h
  have hdeclared : ∀ kind, o.isDeclared kind = true ↔ Declares earlier o.name kind := by
    intro kind
    rw [← isSome_declaredAt?_iff_declares, ← hd, Occurrence.isDeclared_eq_isSome]
    rfl
  have hb : c = o.bareword := Occurrence.eq_bareword_of_classify h
  unfold AgreesWith withRewrite
  dsimp only
  rw [hs, hn]
  split <;> rename_i hslot
  · rw [hb, Occurrence.category_pairValue hslot]
    simp only [hdeclared]
  · rw [hb, Occurrence.category_statementCall hslot]
    simp only [hdeclared]
  · rw [hb, Occurrence.category_memberAccess hslot]
    simp only [hdeclared]
    rfl
  · rw [hb]
    refine ⟨?_, fun hc => ?_⟩
    · rw [Occurrence.category_ioHandle hslot]
      simp only [hdeclared]
      rfl
    · rw [Occurrence.rewrite_ioHandle hslot hc, hc]
      unfold handleAdvice
      rw [← hd]
      rfl
  · trivial

namespace Analyzer

/-- **A report agrees with itself.**  Every classification of a report is the one of a token of the
unit, given after the classifications before it, and agrees with these and with the token after
its own. -/
theorem report_agrees (ts : List SlottedToken) (notices : List Notice) (unit : String)
    (mode : Mode) :
    let found := ((start ts notices).run unit mode).classifications
    ∀ j : Fin found.length, ∃ before t after, ts = before ++ t :: after ∧
      ((start ts notices).advance before.length).2.findings.classifications = found.take j ∧
      t.slot = some found[j].slot ∧ t.token.name = found[j].name ∧
      t.token.position = found[j].position ∧
      found[j].AgreesWith (found.take j) (after.head?.map (·.token)) := by
  intro found j
  have hsplit : found = found.take j ++ found[j] :: found.drop (j + 1) := by
    simp
  obtain ⟨before, t, after, rfl, hb, hc⟩ := exists_step_of_run hsplit
  obtain ⟨slot, d, hslot, hd, hcd⟩ := exists_classify_of_step hc
  obtain ⟨hn, hs, hp, -⟩ := Occurrence.judged_of_classify hd
  refine ⟨before, t, after, rfl, ?_, ?_, ?_, ?_, ?_⟩
  · obtain ⟨l, hl⟩ := advance_before (toList_tokens_start (before ++ t :: after) notices)
    rw [hl, findings_withTokens, hb]
  · rw [hslot, hcd]
    exact congrArg some hs.symm
  · rw [hcd]
    exact hn.symm
  · rw [hcd]
    exact hp.symm
  · -- the table holds what the classifications so far declare
    have hr := recorded_pass (recorded_start (before ++ t :: after) notices) (some t.token) before
    unfold Recorded at hr
    rw [hb] at hr
    rw [hcd]
    exact agreesWith_of_classify hr hd

end Analyzer

end WordRole
