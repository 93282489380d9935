import WordRole.Proofs.Analysis.Step
import WordRole.Proofs.Classification.Rules

/-!
# The declaration table and the report

The table of an analyzer holds what its classifications declare: a name is declared as a kind where
the first classification of that name and kind stands (`Analyzer.Recorded`).  Every step keeps this,
so it holds at each token of a pass (`Analyzer.recorded_pass`).
-/

namespace WordRole

namespace Classification

/-- where classifications first declare a name as a kind -/
def declaredAt? (cs : List Classification) (name : String) (kind : DeclarationKind) :
    Option Position :=
  (cs.find? fun c => c.name == name && c.category = kind.category).map (·.position)

theorem declaredAt?_append (cs : List Classification) (c : Classification) (name : String)
    (kind : DeclarationKind) :
    declaredAt? (cs ++ [c]) name kind = (declaredAt? cs name kind).or
      (if c.name = name ∧ c.category = kind.category then some c.position else none) := by
  simp only [declaredAt?, List.find?_append, Option.map_or]
  congr 1
  by_cases h : c.name = name ∧ c.category = kind.category
  · simp [h]
  · simp only [if_neg h, Option.map_eq_none_iff, List.find?_singleton]
    simpa using h

theorem isSome_declaredAt?_iff {cs : List Classification} {name : String}
    {kind : DeclarationKind} :
    (declaredAt? cs name kind).isSome ↔
      ∃ c ∈ cs, c.name = name ∧ c.category = kind.category := by
  simp [declaredAt?, List.find?_isSome]

end Classification

namespace Analyzer

/-- The table holds what the classifications declare, where they first do. -/
def Recorded (a : Analyzer) : Prop :=
  ∀ name kind, a.declared.first? name kind =
    Classification.declaredAt? a.findings.classifications name kind

theorem recorded_start (ts : List SlottedToken) (notices : List Notice) :
    (start ts notices).Recorded := DeclarationTable.first?_empty

/-! ### One step -/

theorem declared_declare (a : Analyzer) (d : Declaration) :
    (a.declare d).declared = a.declared.push d := by
  unfold declare
  cases hr : a.declared.record d with
  | ok t => exact (DeclarationTable.push_of_record_ok hr).symm
  | error r => exact (DeclarationTable.push_of_record_error hr).symm

theorem first?_declare (a : Analyzer) (d : Declaration) (name : String) (kind : DeclarationKind) :
    (a.declare d).declared.first? name kind = (a.declared.first? name kind).or
      (if d.name = name ∧ d.kind = kind then some d.position else none) := by
  rw [declared_declare, DeclarationTable.first?_push]

theorem first?_add (a : Analyzer) (t : Token) (r : Ruling) (name : String)
    (kind : DeclarationKind) :
    (a.add t r).declared.first? name kind = (a.declared.first? name kind).or
      (if t.name = name ∧ r.declares = some kind then some t.position else none) := by
  unfold add
  cases hd : r.declares with
  | none => simp [log]
  | some k =>
    simp only [Option.some.injEq]
    exact first?_declare a ⟨t.name, k, t.position⟩ name kind

@[simp] theorem declared_scanString (a : Analyzer) (t : Token) :
    (a.scanString t).declared = a.declared := by
  unfold scanString
  split <;> rfl

theorem recorded_step {a : Analyzer} (h : a.Recorded) (t : SlottedToken) (n : Option Token) :
    (a.step t n).2.Recorded := by
  intro name kind
  obtain ⟨-, hs⟩ | ⟨slot, r, -, hr, hs⟩ | ⟨slot, -, -, hs⟩ | ⟨slot, e, -, -, hs⟩ :=
    a.step_cases t n <;> rw [hs]
  · simpa using h name kind
  · show (a.add t.token r).declared.first? name kind =
      Classification.declaredAt? (a.add t.token r).findings.classifications name kind
    -- the kind on the ruling is that of the category, and the name and place are the token's
    have hjudged := Occurrence.judged_of_classify hr
    have hsame : t.token.name = name ∧ r.declares = some kind ↔
        r.name = name ∧ r.category = kind.category := by
      rw [hjudged.declares, Category.declares_eq_some_iff, hjudged.name]
      rfl
    have hposition : t.token.position = r.position := hjudged.position.symm
    rw [first?_add, classifications_add, Classification.declaredAt?_append, h name kind]
    simp only [hsame, hposition]
    rfl
  · exact h name kind
  · exact h name kind

/-! ### A whole pass -/

theorem recorded_pass {a : Analyzer} (h : a.Recorded) (next : Option Token)
    (ts : List SlottedToken) : (a.pass next ts).2.Recorded :=
  pass_invariant (P := Recorded) (fun _ t n _ hb => recorded_step hb t n) h next ts

end Analyzer

end WordRole
