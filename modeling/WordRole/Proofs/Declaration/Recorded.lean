import Mathlib.Data.Finset.Card
import WordRole.Proofs.Declaration.Firsts

/-!
# The table of a list of calls

A declaration table keeps three things in step: the kinds of each name, where each was declared
first, and a log.  All of them are told by the list of the declarations that the table was called
with, the refused ones included (`DeclarationTable.refines_calls`).

* `DeclarationTable.refines_recordAll`: what the table of a list answers;
* `DeclarationTable.growsTo_recordAll`: later calls only add to what a table has.
-/

namespace WordRole

namespace Declaration

/-- What the table keeps one declaration of. -/
def key (d : Declaration) : String × DeclarationKind := (d.name, d.kind)

theorem same_iff_key_eq {d e : Declaration} : d.Same e ↔ e.key = d.key := by
  simp [Same, key]

theorem same_of_find? {ds : List Declaration} {d e : Declaration}
    (h : ds.find? d.Same = some e) : d.Same e := by
  simpa using List.find?_some h

theorem exists_find?_of_mem {ds : List Declaration} {d : Declaration} (h : d ∈ ds) :
    ∃ e, ds.find? d.Same = some e := by
  rw [← Option.isSome_iff_exists, List.find?_isSome]
  exact ⟨d, h, decide_eq_true ⟨rfl, rfl⟩⟩

/-! ### The declarations that are kept -/

theorem nodup_map_key_firsts (ds : List Declaration) : ((firsts ds).map key).Nodup := by
  refine List.pairwise_map.mpr ((pairwise_firsts ds).imp fun h hkey => ?_)
  exact h (same_iff_key_eq.mpr hkey)

/-- The first declaration of a name and kind is kept. -/
theorem mem_firsts_of_find? {ds : List Declaration} {d e : Declaration}
    (h : ds.find? d.Same = some e) : e ∈ firsts ds := by
  induction ds using List.reverseRecOn with
  | nil => cases h
  | append_singleton ds f ih =>
    rw [firsts_concat]
    rw [List.find?_append, Option.or_eq_some_iff] at h
    rcases h with hearlier | ⟨hnone, hlast⟩
    · exact List.mem_append_left _ (ih hearlier)
    · have hsame := same_of_find? hlast
      obtain rfl : e = f := List.mem_singleton.mp (List.mem_of_find?_eq_some hlast)
      -- what repeats it would have been found before it
      have hnew : repeats? ds e = none := by
        rw [repeats?_eq_none_iff]
        intro x hx hex
        rw [List.find?_eq_none] at hnone
        exact hnone x hx (decide_eq_true ⟨hex.1.trans hsame.1, hex.2.trans hsame.2⟩)
      rw [hnew]
      exact List.mem_append_right _ (List.mem_singleton_self e)

/-- What is kept is the first declaration of its name and kind. -/
theorem mem_firsts_iff {ds : List Declaration} {d : Declaration} :
    d ∈ firsts ds ↔ ds.find? d.Same = some d := by
  refine ⟨fun h => ?_, mem_firsts_of_find?⟩
  obtain ⟨e, he⟩ := exists_find?_of_mem ((firsts_sublist ds).subset h)
  have hkey : e.key = d.key := same_iff_key_eq.mp (same_of_find? he)
  rw [he, List.inj_on_of_nodup_map (nodup_map_key_firsts ds) (mem_firsts_of_find? he) h hkey]

theorem length_firsts (ds : List Declaration) :
    (firsts ds).length = (ds.map key).toFinset.card := by
  rw [← List.length_map key, ← List.toFinset_card_of_nodup (nodup_map_key_firsts ds)]
  congr 1
  ext k
  simp only [List.mem_toFinset, List.mem_map]
  constructor
  · rintro ⟨d, hd, rfl⟩
    exact ⟨d, (firsts_sublist ds).subset hd, rfl⟩
  · rintro ⟨d, hd, rfl⟩
    obtain ⟨e, he⟩ := exists_find?_of_mem hd
    exact ⟨e, mem_firsts_of_find? he, same_iff_key_eq.mp (same_of_find? he)⟩

end Declaration

open Declaration

namespace DeclarationTable

/-! ### What a table answers -/

/-- The answers of a table, told by the declarations that it was called with. -/
structure Refines (t : DeclarationTable) (calls : List Declaration) : Prop where
  /-- the kinds that a name was called with -/
  kinds : ∀ name kind, (t.kindsOf name).contains kind = true ↔
    ∃ d ∈ calls, d.name = name ∧ d.kind = kind
  /-- the place of the earliest call -/
  first : ∀ name kind, t.first? name kind =
    (calls.find? fun d => d.name = name ∧ d.kind = kind).map (·.position)
  /-- the earliest call of each name and kind, in order -/
  log : t.log = firsts calls
  mem_log : ∀ d, d ∈ t.log ↔ calls.find? d.Same = some d
  nodup_log : (t.log.map key).Nodup
  size : t.size = (calls.map key).toFinset.card

theorem refines_recordAll (calls : List Declaration) : (empty.recordAll calls).Refines calls := by
  have hfirst : ∀ name kind, (empty.recordAll calls).first? name kind =
      (calls.find? fun d => d.name = name ∧ d.kind = kind).map (·.position) :=
    fun name kind => first?_recordAll calls ⟨name, kind, default⟩
  have hlog := log_recordAll calls
  refine ⟨fun name kind => ?_, hfirst, hlog, fun d => ?_, ?_, ?_⟩
  · rw [contains_kindsOf, hfirst, Option.isSome_map, List.find?_isSome]
    simp only [decide_eq_true_eq]
  · rw [hlog]
    exact mem_firsts_iff
  · rw [hlog]
    exact nodup_map_key_firsts calls
  · exact (congrArg List.length hlog).trans (length_firsts calls)

/-! ### Later calls -/

/-- All that one table has is in another, its log at the beginning. -/
structure GrowsTo (t u : DeclarationTable) : Prop where
  log : t.log <+: u.log
  kinds : ∀ name kind, (t.kindsOf name).contains kind = true →
    (u.kindsOf name).contains kind = true
  first : ∀ name kind p, t.first? name kind = some p → u.first? name kind = some p

theorem GrowsTo.trans {t u v : DeclarationTable} (h : t.GrowsTo u) (h' : u.GrowsTo v) :
    t.GrowsTo v where
  log := h.log.trans h'.log
  kinds name kind hk := h'.kinds name kind (h.kinds name kind hk)
  first name kind p hp := h'.first name kind p (h.first name kind p hp)

theorem growsTo_push (t : DeclarationTable) (d : Declaration) : t.GrowsTo (t.push d) := by
  refine ⟨?_, fun name kind h => ?_, fun name kind p h => ?_⟩
  · rw [log_push]
    exact List.prefix_append _ _
  · rw [contains_kindsOf] at h ⊢
    rw [first?_push, Option.or_of_isSome h]
    exact h
  · rw [first?_push, h]
    rfl

theorem growsTo_recordAll (t : DeclarationTable) (ds : List Declaration) :
    t.GrowsTo (t.recordAll ds) := by
  induction ds generalizing t with
  | nil => exact ⟨List.prefix_refl _, fun _ _ h => h, fun _ _ _ h => h⟩
  | cons d ds ih => exact (growsTo_push t d).trans (ih (t.push d))

/-! ### The table of a list of calls -/

/-- **The table.**  After any calls its kinds, its first places and its log are those of the calls,
whatever was refused.  The next call is taken if it is the first of its name and kind; if not, it
is refused with the place of the first one, and the table stays as it was.  All that the table has
it keeps in every later one. -/
theorem refines_calls (calls : List Declaration) :
    let t := empty.recordAll calls
    t.Refines calls ∧
    (∀ d, match calls.find? d.Same with
      | none => t.record d = .ok (empty.recordAll (calls ++ [d]))
      | some first => t.record d = .error ⟨d.name, d.kind, first.position, d.position⟩ ∧
          empty.recordAll (calls ++ [d]) = t) ∧
    ∀ more, t.GrowsTo (empty.recordAll (calls ++ more)) := by
  intro t
  refine ⟨refines_recordAll calls, fun d => ?_, fun more => ?_⟩
  · have hrecord := record_recordAll calls d
    unfold repeats? at hrecord
    cases hfind : calls.find? d.Same with
    | none =>
      rw [hfind] at hrecord
      exact hrecord
    | some first =>
      rw [hfind] at hrecord
      exact ⟨hrecord, (recordAll_concat empty calls d).trans (push_of_record_error hrecord)⟩
  · rw [recordAll_append]
    exact growsTo_recordAll t more

end DeclarationTable

end WordRole
