import Mathlib.Data.List.Infix
import WordRole.Declaration.Table

/-!
# First declarations

Of a list of declarations the table keeps those that are the first with their name and kind, and
refuses the others:

* `DeclarationTable.record_recordAll`: what recording one more declaration does;
* `DeclarationTable.first?_recordAll`: nothing is lost of what the table is asked for;
* `DeclarationTable.log_recordAll`: the log is those that are kept;
* `Declaration.firsts_sublist`, `Declaration.pairwise_firsts`, `Declaration.length_firsts_add`: each
  declaration is kept once or refused.
-/

namespace WordRole

namespace Declaration

/-- Whether two declarations have one name and kind. -/
def Same (d e : Declaration) : Prop := e.name = d.name ∧ e.kind = d.kind

instance (d e : Declaration) : Decidable (d.Same e) := inferInstanceAs (Decidable (_ ∧ _))

/-- what a declaration repeats, if there is an earlier one of its name and kind -/
def repeats? (earlier : List Declaration) (d : Declaration) : Option Redeclaration :=
  (earlier.find? d.Same).map fun first => ⟨d.name, d.kind, first.position, d.position⟩

/-- the declarations of a list, each with those before it -/
def withEarlier (ds : List Declaration) : List (List Declaration × Declaration) := ds.inits.zip ds

/-- the declarations that are the first with their name and kind, in order -/
def firsts (ds : List Declaration) : List Declaration :=
  ((withEarlier ds).filter fun p => (repeats? p.1 p.2).isNone).map (·.2)

/-- the other declarations, each with the place of the first one, in order -/
def repeated (ds : List Declaration) : List Redeclaration :=
  (withEarlier ds).filterMap fun p => repeats? p.1 p.2

/-! ### One more declaration -/

theorem withEarlier_concat (ds : List Declaration) (d : Declaration) :
    withEarlier (ds ++ [d]) = withEarlier ds ++ [(ds, d)] := by
  -- the whole list is the last of its beginnings
  obtain ⟨inits, hinits, hlength⟩ :
      ∃ inits, ds.inits = inits ++ [ds] ∧ inits.length = ds.length := by
    refine ⟨ds.inits.dropLast, ?_, by simp⟩
    have hne : ds.inits ≠ [] := List.ne_nil_of_length_pos (by simp)
    have hlast : ds.inits.getLast hne = ds := by simp [List.getLast_eq_getElem]
    conv_lhs => rw [← List.dropLast_append_getLast hne, hlast]
  unfold withEarlier
  rw [List.inits_append, hinits, List.append_assoc, List.zip_append hlength]
  conv_rhs => rw [← List.append_nil ds, List.zip_append (by simpa using hlength)]
  simp

theorem firsts_concat (ds : List Declaration) (d : Declaration) :
    firsts (ds ++ [d]) = firsts ds ++ if (repeats? ds d).isNone then [d] else [] := by
  unfold firsts
  rw [withEarlier_concat, List.filter_append, List.map_append]
  split <;> simp_all

theorem repeated_concat (ds : List Declaration) (d : Declaration) :
    repeated (ds ++ [d]) = repeated ds ++ (repeats? ds d).toList := by
  unfold repeated
  rw [withEarlier_concat, List.filterMap_append]
  cases h : repeats? ds d <;> simp [h]

theorem repeats?_eq_none_iff {ds : List Declaration} {d : Declaration} :
    repeats? ds d = none ↔ ∀ e ∈ ds, ¬d.Same e := by
  simp [repeats?]

/-! ### What is kept -/

theorem firsts_sublist (ds : List Declaration) : (firsts ds).Sublist ds := by
  induction ds using List.reverseRecOn with
  | nil => exact List.Sublist.slnil
  | append_singleton ds d ih =>
    rw [firsts_concat]
    refine ih.append ?_
    split
    · exact List.Sublist.refl [d]
    · exact List.nil_sublist [d]

/-- No name and kind is kept twice. -/
theorem pairwise_firsts (ds : List Declaration) : (firsts ds).Pairwise fun d e => ¬e.Same d := by
  induction ds using List.reverseRecOn with
  | nil => exact .nil
  | append_singleton ds d ih =>
    rw [firsts_concat]
    split
    · rename_i hnew
      rw [Option.isNone_iff_eq_none, repeats?_eq_none_iff] at hnew
      refine List.pairwise_append.mpr ⟨ih, List.pairwise_singleton _ d, fun e he f hf => ?_⟩
      rw [List.mem_singleton.mp hf]
      exact hnew e ((firsts_sublist ds).subset he)
    · rwa [List.append_nil]

/-- Every declaration is kept or repeats another. -/
theorem length_firsts_add (ds : List Declaration) :
    (firsts ds).length + (repeated ds).length = ds.length := by
  induction ds using List.reverseRecOn with
  | nil => rfl
  | append_singleton ds d ih =>
    rw [firsts_concat, repeated_concat]
    cases repeats? ds d <;> simp <;> omega

end Declaration

namespace DeclarationTable

open Declaration

/-! ### The table of a list -/

/-- Where a name is first declared as a kind is told by the first declaration of both. -/
theorem first?_recordAll (ds : List Declaration) (d : Declaration) :
    (empty.recordAll ds).first? d.name d.kind = (ds.find? d.Same).map (·.position) := by
  induction ds using List.reverseRecOn with
  | nil => exact first?_empty d.name d.kind
  | append_singleton ds e ih =>
    rw [recordAll_concat, first?_push, ih, List.find?_append, Option.map_or]
    congr 1
    rw [List.find?_singleton]
    by_cases he : d.Same e
    · rw [if_pos (decide_eq_true he)]
      exact if_pos he
    · rw [if_neg (mt of_decide_eq_true he)]
      exact if_neg he

theorem log_recordAll (ds : List Declaration) : (empty.recordAll ds).log = firsts ds := by
  induction ds using List.reverseRecOn with
  | nil => rfl
  | append_singleton ds d ih =>
    rw [recordAll_concat, log_push, ih, firsts_concat, first?_recordAll]
    unfold repeats?
    rw [Option.isNone_map, Option.isNone_map]

/-- **Recording.**  The table of a list takes a declaration that is the first of its name and kind
and refuses any other, naming the first. -/
theorem record_recordAll (ds : List Declaration) (d : Declaration) :
    (empty.recordAll ds).record d = match repeats? ds d with
      | none => .ok (empty.recordAll (ds ++ [d]))
      | some r => .error r := by
  rw [recordAll_concat]
  unfold push record repeats?
  rw [first?_recordAll]
  cases ds.find? d.Same <;> rfl

end DeclarationTable

end WordRole
