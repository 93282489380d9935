import WordRole.Proofs.Files.Places
import WordRole.Target

/-!
# What a target names

A target that names a directory comes to the sources and token documents there: all that are below
it, or those that are themselves in it.  They are listed in the order of their paths, each of them
once, and a target that comes to none is refused (`FileTree.expand_directory`).

* `Target.ofText_concat_deepMark`, `Target.ofText_eq_flat`: the two ways to name a directory;
* `Place.pairwise_listed`: the files that are found are in the order of their paths, strictly;
* `FileTree.expand_of_ofText`: what a target comes to, from the files of the entry it leads to.
-/

namespace WordRole

/-- the files of the target that a text names, where paths lead through a tree -/
def FileTree.expand (t : FileTree) (text : String) : Except Failure (List FoundFile) :=
  let look : Look Id := fun path _ => t.look path
  (Target.expand look text).run

/-! ### The order of files -/

theorem Path.not_isBefore_of_isBefore {p q : String} (h : isBefore p q = true) :
    ¬isBefore q p = true := by
  simp only [isBefore, decide_eq_true_eq] at h ⊢
  exact List.lt_asymm h

namespace Place

/-- Paths in order are in strict order, or lead to one place. -/
theorem isBefore_or_eq {p q : Place} (hp : ∀ name ∈ p.names, Path.IsName name)
    (hq : ∀ name ∈ q.names, Path.IsName name) {directory : String}
    (h : Path.inOrder (p.path directory) (q.path directory) = true) :
    Path.isBefore (p.path directory) (q.path directory) = true ∨ p.names = q.names := by
  simp only [Path.inOrder, Path.isBefore, Bool.not_eq_true', decide_eq_false_iff_not,
    decide_eq_true_eq] at h ⊢
  by_cases hlt : Path.parts (p.path directory) < Path.parts (q.path directory)
  · exact .inl hlt
  · have heq := List.le_antisymm h hlt
    rw [path, path, Path.parts_descend _ hp, Path.parts_descend _ hq] at heq
    have hnames := List.append_cancel_left heq
    exact .inr (List.map_injective_iff.mpr (fun _ _ => String.toList_inj.mp) hnames)

/-- the sources and documents among some files, in the order of their paths from a directory -/
def listed (directory : String) (ps : List Place) : List Place :=
  (ps.filter fun p => Path.isInput (p.path directory)).mergeSort
    fun p q => Path.inOrder (p.path directory) (q.path directory)

theorem perm_listed (directory : String) (ps : List Place) :
    (listed directory ps).Perm (ps.filter fun p => Path.isInput (p.path directory)) :=
  List.mergeSort_perm _ _

theorem map_found_listed (directory : String) (ps : List Place) :
    (listed directory ps).map (·.found directory) =
      ((ps.map (·.found directory)).filter fun f => Path.isInput f.path).mergeSort
        fun f g => Path.inOrder f.path g.path := by
  rw [List.filter_map]
  exact List.map_mergeSort fun p _ q _ => rfl

section Distinct

variable {ps : List Place} (hnames : ∀ p ∈ ps, ∀ name ∈ p.names, Path.IsName name)
  (hdistinct : (ps.map (·.names)).Nodup) (directory : String)

include hnames hdistinct

theorem pairwise_listed : (listed directory ps).Pairwise fun p q =>
    Path.isBefore (p.path directory) (q.path directory) = true := by
  have hperm := perm_listed directory ps
  have trans (p q r : Place) (hpq : Path.inOrder (p.path directory) (q.path directory) = true)
      (hqr : Path.inOrder (q.path directory) (r.path directory) = true) :
      Path.inOrder (p.path directory) (r.path directory) = true := Path.inOrder_trans hpq hqr
  have total (p q : Place) : (Path.inOrder (p.path directory) (q.path directory) ||
      Path.inOrder (q.path directory) (p.path directory)) = true := Path.inOrder_total _ _
  have hsorted : (listed directory ps).Pairwise fun p q =>
      Path.inOrder (p.path directory) (q.path directory) = true :=
    List.pairwise_mergeSort trans total _
  have hne : (listed directory ps).Pairwise fun p q => p.names ≠ q.names := by
    have := (List.pairwise_map.mp hdistinct).filter fun p => Path.isInput (p.path directory)
    exact hperm.symm.pairwise this fun h => h.symm
  have hmem : ∀ p ∈ listed directory ps, ∀ name ∈ p.names, Path.IsName name := fun p hp =>
    hnames p (List.mem_filter.mp (hperm.mem_iff.mp hp)).1
  refine (hsorted.and hne).imp_of_mem fun hp hq h => ?_
  exact (isBefore_or_eq (hmem _ hp) (hmem _ hq) h.1).resolve_right h.2

/-- The files that pass a test are listed as they are listed among the others. -/
theorem filter_listed (test : Place → Bool) :
    (listed directory ps).filter test = listed directory (ps.filter test) := by
  have hnames' : ∀ p ∈ ps.filter test, ∀ name ∈ p.names, Path.IsName name := fun p hp =>
    hnames p (List.mem_filter.mp hp).1
  have hdistinct' : ((ps.filter test).map (·.names)).Nodup :=
    hdistinct.sublist (List.filter_sublist.map _)
  have hperm : ((listed directory ps).filter test).Perm (listed directory (ps.filter test)) := by
    refine ((perm_listed directory ps).filter test).trans (.trans ?_ (perm_listed _ _).symm)
    rw [List.filter_comm]
  refine List.Perm.eq_of_pairwise (fun p q _ _ h h' => ?_)
    ((pairwise_listed hnames hdistinct directory).filter test)
    (pairwise_listed hnames' hdistinct' directory) hperm
  exact absurd h' (Path.not_isBefore_of_isBefore h)

end Distinct

end Place

/-! ### Texts that name targets -/

namespace Target

theorem ofText_concat_deepMark {directory : String} (h : directory.toList ≠ []) :
    ofText (directory ++ "/...") = ⟨directory, true⟩ := by
  have htext : (directory ++ "/...").toList = directory.toList ++ deepMark := String.toList_append
  unfold ofText
  dsimp only
  rw [htext, if_pos (List.isSuffixOf_iff_suffix.mpr (List.suffix_append _ _)),
    List.length_append, Nat.add_sub_cancel, List.take_left, String.ofList_toList, if_neg]
  simpa using h

theorem ofText_eq_flat {directory : String} (h : ¬deepMark <:+ directory.toList) :
    ofText directory = ⟨directory, false⟩ := by
  unfold ofText
  exact if_neg fun hmark => h (List.isSuffixOf_iff_suffix.mp hmark)

/-- The files of a directory are the listed ones. -/
theorem files_directory (directory : String) (deep : Bool) (entries : List (String × Entry)) :
    files ⟨directory, deep⟩ (.directory entries) =
      (Place.listed directory ((Entry.placesIn entries).filter fun p => deep || p.isDirect)).map
        (·.found directory) := by
  rw [Place.map_found_listed]
  cases deep with
  | true =>
    have hall : (Entry.placesIn entries).filter (fun p => true || p.isDirect) =
        Entry.placesIn entries := List.filter_eq_self.mpr fun _ _ => rfl
    rw [hall, ← Entry.inputsIn_eq]
    rfl
  | false =>
    have hdirect : (Entry.placesIn entries).filter (fun p => false || p.isDirect) =
        (Entry.placesIn entries).filter (·.isDirect) := rfl
    rw [hdirect, ← Entry.inputsDirectlyIn_eq]
    rfl

/-- what a target comes to that has some files -/
def settled (text : String) (files : List FoundFile) : Except Failure (List FoundFile) :=
  if files.isEmpty then .error (.invalidPath text) else .ok files

end Target

namespace FileTree

open Target

theorem expand_of_ofText {t : FileTree} {text base : String} {deep : Bool} {e : Entry}
    (htarget : Target.ofText text = ⟨base, deep⟩) (hlook : t.look base = .ok e) :
    t.expand text = settled text (files ⟨base, deep⟩ e) := by
  have hlift : ∀ f : Except AccessError Entry → ExceptT Failure Id (List FoundFile),
      liftM (m := Id) (.ok e) >>= f = f (.ok e) := fun _ => rfl
  unfold expand Target.expand settled
  simp only [htarget]
  rw [hlook]
  refine (congrArg ExceptT.run (hlift _)).trans ?_
  by_cases hempty : (files ⟨base, deep⟩ e).isEmpty = true
  · have hfiles : files? ⟨base, deep⟩ (.ok e) = none := if_pos hempty
    rw [if_pos hempty, hfiles]
    rfl
  · have hfiles : files? ⟨base, deep⟩ (.ok e) = some (files ⟨base, deep⟩ e) := if_neg hempty
    rw [if_neg hempty, hfiles]
    rfl

/-- **Expansion.**  The sources and documents below a directory, where `entries` are in it, and what
the two targets that name the directory come to. -/
structure Expands (t : FileTree) (directory : String) (entries : List (String × Entry))
    (places : List Place) : Prop where
  complete : ∀ p, p ∈ places ↔
    (Entry.directory entries).Leads p.names (.file p.bytes) ∧ p.IsInput
  sorted : places.Pairwise fun p q =>
    Path.isBefore (p.path directory) (q.path directory) = true
  leads : ∀ p ∈ places, t.look (p.path directory) = .ok (.file p.bytes)
  deep : t.expand (directory ++ "/...") =
    settled (directory ++ "/...") (places.map (·.found directory))
  /-- a path that ends in the mark of deep targets names no directory on its own -/
  direct : ¬deepMark <:+ directory.toList →
    t.expand directory = settled directory ((places.filter (·.isDirect)).map (·.found directory))

/-- Where a path leads to a directory of a tree, the path with `/...` after it comes to all sources
and documents below the directory, and the path itself to those in it, unless it ends in that mark:
each once, in the strict order of their paths, and nothing else.  A target that comes to no file is
refused. -/
theorem expand_directory {t : FileTree} {directory : String} {entries : List (String × Entry)}
    (hlook : t.look directory = .ok (.directory entries))
    (hproper : (Entry.directory entries).Proper) :
    ∃ places, Expands t directory entries places := by
  have hleads : ∀ {p}, p ∈ Entry.placesIn entries ↔
      (Entry.directory entries).Leads p.names (.file p.bytes) :=
    fun {p} => Entry.mem_places_iff (.directory entries) p
  have hnames : ∀ p ∈ Entry.placesIn entries, ∀ name ∈ p.names, Path.IsName name :=
    fun p hp => (hleads.mp hp).isName hproper
  have hdistinct : ((Entry.placesIn entries).map (·.names)).Nodup := hproper.nodup_places
  have hcomplete : ∀ p, p ∈ Place.listed directory (Entry.placesIn entries) ↔
      (Entry.directory entries).Leads p.names (.file p.bytes) ∧ p.IsInput := by
    intro p
    rw [(Place.perm_listed directory _).mem_iff, List.mem_filter, hleads]
    refine and_congr_right fun hp => ?_
    obtain ⟨name, _, more, -, hne, -⟩ := Entry.leads_directory_iff.mp hp
    exact Place.isInput_path_iff (hnames p (hleads.mpr hp)) (by simp [hne]) directory
  refine ⟨Place.listed directory (Entry.placesIn entries), hcomplete,
    Place.pairwise_listed hnames hdistinct directory, fun p hp => ?_, ?_, fun hmark => ?_⟩
  · exact look_descend hlook hproper ((hcomplete p).mp hp).1
  · have hne : directory.toList ≠ [] := (look_eq_ok_iff.mp hlook).2.1
    rw [expand_of_ofText (ofText_concat_deepMark hne) hlook, files_directory]
    simp
  · rw [expand_of_ofText (ofText_eq_flat hmark) hlook, files_directory,
      Place.filter_listed hnames hdistinct]
    simp

/-- Files are told by their extensions, and their names may be those of directories. -/
theorem exists_expands_directoryNamedLikeSource :
    let pl : List (String × Entry) := [(".pl", .file .empty), ("x.pm", .file .empty)]
    let entries : List (String × Entry) :=
      [("a.pl", .directory pl), ("a-b", .directory [("z.t", .file .empty)]),
        ("B.PL", .file .empty), ("c.json", .file .empty)]
    let t : FileTree := ⟨.directory [("src", .directory entries)], []⟩
    t.look "src" = .ok (.directory entries) ∧ (Entry.directory entries).Proper ∧
      ∃ places, Expands t "src" entries places := by
  intro pl entries t
  have hlook : t.look "src" = .ok (.directory entries) :=
    look_name rfl (by decide) (by decide) List.mem_cons_self
  have hpl : (Entry.directory pl).Proper :=
    .directory (by decide) (by decide) (by simp [pl, Entry.Proper.file])
  have htests : (Entry.directory [("z.t", .file .empty)]).Proper :=
    .directory (by decide) (by decide) (by simp [Entry.Proper.file])
  have hproper : (Entry.directory entries).Proper :=
    .directory (by decide) (by decide) (by simp [entries, hpl, htests, Entry.Proper.file])
  exact ⟨hlook, hproper, expand_directory hlook hproper⟩

/-- A directory whose name is the mark of deep targets: its path is such a target of the directory
above, and leads to other files too. -/
theorem expand_directoryNamedLikeMark :
    let marked : Entry := .directory [("a.pl", .file .empty)]
    let t : FileTree :=
      ⟨.directory [("x", .directory [("...", marked), ("b.pl", .file .empty)])], []⟩
    t.look "x/..." = .ok marked ∧
      t.expand "x/..." = .ok [⟨"x/.../a.pl", .empty⟩, ⟨"x/b.pl", .empty⟩] ∧
      t.expand "x/..." ≠ .ok [⟨"x/.../a.pl", .empty⟩] := by
  intro marked t
  have hlook : t.look "x" = .ok (.directory [("...", marked), ("b.pl", .file .empty)]) :=
    look_name rfl (by decide) (by decide) List.mem_cons_self
  have hmarked : t.look "x/..." = .ok marked :=
    look_join hlook (by decide : Path.IsName "...") (by decide) List.mem_cons_self
  have hfiles : files ⟨"x", true⟩ (.directory [("...", marked), ("b.pl", .file .empty)]) =
      [⟨"x/.../a.pl", .empty⟩, ⟨"x/b.pl", .empty⟩] :=
    List.mergeSort_of_pairwise (List.pairwise_pair.mpr (by decide))
  have hexpand : t.expand "x/..." = .ok [⟨"x/.../a.pl", .empty⟩, ⟨"x/b.pl", .empty⟩] := by
    rw [expand_of_ofText (by decide : ofText "x/..." = ⟨"x", true⟩) hlook, hfiles]
    rfl
  refine ⟨hmarked, hexpand, ?_⟩
  rw [hexpand]
  simp

end FileTree

end WordRole
