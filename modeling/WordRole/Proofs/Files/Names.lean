import Mathlib.Data.List.Infix
import WordRole.Files.Path
import WordRole.Proofs.Text.Runs

/-!
# Paths and names

A path in a directory has the parts of the directory's path and the name (`Path.parts_join`).  What
of a name is its extension is told by its last dot (`Path.extensionOf_eq_some_iff`), so whether a
path leads to a source or a token document is told by the name at its end (`Path.isInput_join_iff`).
-/

namespace WordRole

/-! ### Runs on both sides of a separator -/

namespace Text

variable {p : Char → Bool} {c : Char}

theorem takeWhile_append_cons (hc : p c = false) (s w : List Char) :
    (s ++ c :: w).takeWhile p = s.takeWhile p := by
  induction s with
  | nil => simp [hc]
  | cons d s ih => rw [List.cons_append, List.takeWhile_cons, List.takeWhile_cons, ih]

theorem dropWhile_append_cons (hc : p c = false) (s w : List Char) :
    (s ++ c :: w).dropWhile p = s.dropWhile p ++ c :: w := by
  induction s with
  | nil => simp [hc]
  | cons d s ih =>
    rw [List.cons_append, List.dropWhile_cons, List.dropWhile_cons, ih]
    split <;> rfl

theorem runs_append_cons (hc : p c = false) (s w : List Char) :
    runs p (s ++ c :: w) = runs p s ++ runs p w := by
  match s with
  | [] => rw [List.nil_append, runs_cons_of_neg hc]; rfl
  | d :: s =>
    rw [List.cons_append]
    cases hd : p d with
    | false => rw [runs_cons_of_neg hd, runs_cons_of_neg hd, runs_append_cons hc s w]
    | true =>
      have := List.length_dropWhile_le p s
      rw [runs_cons_of_pos hd, runs_cons_of_pos hd, takeWhile_append_cons hc,
        dropWhile_append_cons hc, runs_append_cons hc (s.dropWhile p) w, List.cons_append]
termination_by s.length

theorem runs_of_all {w : List Char} (hne : w ≠ []) (h : ∀ c ∈ w, p c = true) : runs p w = [w] := by
  obtain ⟨c, w, rfl⟩ := List.exists_cons_of_ne_nil hne
  have hw : ∀ d ∈ w, p d = true := fun d hd => h d (List.mem_cons_of_mem c hd)
  rw [runs_cons_of_pos (h c List.mem_cons_self), List.takeWhile_eq_self_iff.mpr hw,
    List.dropWhile_eq_nil_iff.mpr hw]
  rfl

end Text

namespace Path

/-! ### Names -/

/-- A name that an entry of a directory can have. -/
structure IsName (name : String) : Prop where
  ne_nil : name.toList ≠ []
  noSlash : '/' ∉ name.toList
  noNul : '\x00' ∉ name.toList
  /-- these two stand for the directory itself and for the one above it -/
  noDots : name.toList ≠ ['.'] ∧ name.toList ≠ ['.', '.']

instance (name : String) : Decidable (IsName name) :=
  decidable_of_iff (name.toList ≠ [] ∧ '/' ∉ name.toList ∧ '\x00' ∉ name.toList ∧
      name.toList ≠ ['.'] ∧ name.toList ≠ ['.', '.'])
    ⟨fun h => ⟨h.1, h.2.1, h.2.2.1, h.2.2.2⟩, fun h => ⟨h.ne_nil, h.noSlash, h.noNul, h.noDots⟩⟩

/-- A path with one name more at its end. -/
theorem toList_join (directory name : String) :
    ∃ front, (join directory name).toList = front ++ name.toList ∧
      ((front = [] ∧ directory.toList = []) ∨
        ∃ s, front = s ++ ['/'] ∧
          (directory.toList = s ∨ directory.toList = s ++ ['/'])) := by
  unfold join
  by_cases hempty : directory = ""
  · subst hempty
    exact ⟨[], by simp, .inl ⟨rfl, rfl⟩⟩
  have hisEmpty : directory.isEmpty = false := by simpa using hempty
  rw [hisEmpty, Bool.false_or]
  split
  · rename_i hlast
    obtain ⟨s, hs⟩ := List.getLast?_eq_some_iff.mp (of_decide_eq_true hlast)
    exact ⟨s ++ ['/'], by rw [String.toList_append, hs], .inr ⟨s, rfl, .inr hs⟩⟩
  · refine ⟨directory.toList ++ ['/'], ?_, .inr ⟨_, rfl, .inl rfl⟩⟩
    rw [String.toList_append, String.toList_append]
    rfl

theorem IsName.runs_eq {name : String} (h : IsName name) :
    Text.runs (· != '/') name.toList = [name.toList] :=
  Text.runs_of_all h.ne_nil fun c hc => by simpa using ne_of_mem_of_not_mem hc h.noSlash

theorem IsName.runs_join {name : String} (h : IsName name) (directory : String) :
    Text.runs (· != '/') (join directory name).toList =
      Text.runs (· != '/') directory.toList ++ [name.toList] := by
  have hsplit : ∀ s w : List Char, Text.runs (· != '/') (s ++ '/' :: w) =
      Text.runs (· != '/') s ++ Text.runs (· != '/') w := Text.runs_append_cons rfl
  obtain ⟨front, hjoin, ⟨rfl, hd⟩ | ⟨s, rfl, hd | hd⟩⟩ := toList_join directory name
  · rw [hjoin, hd, List.nil_append, h.runs_eq]
    rfl
  · rw [hjoin, hd, List.append_assoc, List.singleton_append, hsplit, h.runs_eq]
  · rw [hjoin, hd, List.append_assoc, List.singleton_append, hsplit, hsplit, h.runs_eq, Text.runs,
      List.append_nil]

theorem parts_join {name : String} (h : IsName name) (directory : String) :
    parts (join directory name) = parts directory ++ [name.toList] := by
  unfold parts
  have hname : [name.toList].filter (· != ['.']) = [name.toList] := by simp [h.noDots.1]
  rw [h.runs_join, List.filter_append, hname]

/-- the path that some names lead to from a directory -/
def descend (directory : String) (names : List String) : String := names.foldl join directory

theorem parts_descend (directory : String) {names : List String}
    (h : ∀ name ∈ names, IsName name) :
    parts (descend directory names) = parts directory ++ names.map (·.toList) := by
  induction names generalizing directory with
  | nil => simp [descend]
  | cons name names ih =>
    have hmore := ih (join directory name) fun n hn => h n (List.mem_cons_of_mem name hn)
    rw [parts_join (h name List.mem_cons_self)] at hmore
    simpa [descend] using hmore

/-! ### Extensions -/

/-- A name has an extension: what follows its last dot, which is not the first character. -/
def HasExtension (name : String) (extension : String) : Prop :=
  ∃ stem, stem ≠ [] ∧ '.' ∉ extension.toList ∧ name.toList = stem ++ '.' :: extension.toList

theorem extensionOf_eq_some_iff {name extension : List Char} :
    extensionOf name = some extension ↔
      ∃ stem, stem ≠ [] ∧ '.' ∉ extension ∧ name = stem ++ '.' :: extension := by
  unfold extensionOf
  constructor
  · intro h
    split at h
    · rename_i c cs hdrop
      have hname := List.takeWhile_append_dropWhile (p := (· != '.')) (l := name.reverse)
      rw [hdrop] at hname
      obtain rfl := Option.some.inj h
      refine ⟨(c :: cs).reverse, by simp, ?_, ?_⟩
      · intro hdot
        simpa using List.mem_takeWhile_imp (List.mem_reverse.mp hdot)
      · calc name = name.reverse.reverse := name.reverse_reverse.symm
          _ = (name.reverse.takeWhile (· != '.') ++ '.' :: c :: cs).reverse := by rw [hname]
          _ = _ := by simp
    · cases h
  · rintro ⟨stem, hstem, hdot, rfl⟩
    have hreverse : (stem ++ '.' :: extension).reverse =
        extension.reverse ++ '.' :: stem.reverse := by simp
    have hall : ∀ c ∈ extension.reverse, (c != '.') = true := fun c hc => by
      simpa using ne_of_mem_of_not_mem (List.mem_reverse.mp hc) hdot
    rw [hreverse, Text.takeWhile_append_cons rfl, Text.dropWhile_append_cons rfl,
      List.takeWhile_eq_self_iff.mpr hall, List.dropWhile_eq_nil_iff.mpr hall]
    obtain ⟨c, cs, hcs⟩ := List.exists_cons_of_ne_nil (List.reverse_ne_nil_iff.mpr hstem)
    rw [hcs]
    simp

theorem extension?_join {name : String} (h : IsName name) (directory extension : String) :
    extension? (join directory name) = some extension ↔ HasExtension name extension := by
  unfold extension?
  rw [parts_join h, List.getLast?_append, List.getLast?_singleton, Option.some_or]
  dsimp only
  rw [if_neg h.noDots.2, Option.map_eq_some_iff]
  constructor
  · rintro ⟨e, he, rfl⟩
    unfold HasExtension
    rw [String.toList_ofList]
    exact extensionOf_eq_some_iff.mp he
  · intro he
    exact ⟨extension.toList, extensionOf_eq_some_iff.mpr he, String.ofList_toList⟩

/-- Sources and token documents are told by the extension of the name. -/
theorem isInput_join_iff {name : String} (h : IsName name) (directory : String) :
    isInput (join directory name) = true ↔
      ∃ extension ∈ ["json", "pl", "pm", "t"], HasExtension name extension := by
  unfold isInput
  simp only [Option.any_eq_true, extension?_join h]
  constructor
  · rintro ⟨e, he, hmem⟩
    exact ⟨e, by simpa [documentExtension, sourceExtensions] using hmem, he⟩
  · rintro ⟨e, hmem, he⟩
    exact ⟨e, he, by simpa [documentExtension, sourceExtensions] using hmem⟩

end Path

end WordRole
