import Mathlib.Data.List.Nodup
import WordRole.Files.Entry
import WordRole.Proofs.Files.Names

/-!
# The files of a tree

A file of a tree is told by the names that lead to it from the top (`Entry.Leads`).  The walk that
looks for sources and token documents goes through all files of a tree, and through none twice:

* `Entry.mem_places_iff`, `Entry.Proper.nodup_places`: the files of a tree, each of them once;
* `Entry.inputsIn_eq`, `Entry.inputsDirectlyIn_eq`: what is found below a directory and in it;
* `FileTree.look_descend`: the path of a file leads to it.
-/

namespace WordRole

/-- A file of a tree, with the names that lead to it from the top. -/
structure Place where
  names : List String
  bytes : ByteArray

namespace Place

/-- the file in the tree where the top is an entry of a directory -/
def below (name : String) (p : Place) : Place := { p with names := name :: p.names }

def path (directory : String) (p : Place) : String := Path.descend directory p.names

/-- the file as it is found from a directory -/
def found (directory : String) (p : Place) : FoundFile := ⟨p.path directory, p.bytes⟩

/-- Sources and token documents have one of four extensions. -/
def IsInput (p : Place) : Prop :=
  ∃ name ∈ p.names.getLast?, ∃ extension ∈ ["json", "pl", "pm", "t"],
    Path.HasExtension name extension

/-- whether a file is itself in the directory at the top -/
def isDirect (p : Place) : Bool := p.names.length = 1

end Place

namespace Entry

/-- Names that lead from an entry to one below it, or none at all that lead to the entry itself. -/
inductive Leads : Entry → List String → Entry → Prop
  | here (e : Entry) : Leads e [] e
  | down {entries : List (String × Entry)} {name : String} {e f : Entry} {names : List String}
    (hmem : (name, e) ∈ entries) (hmore : Leads e names f) :
    Leads (.directory entries) (name :: names) f

/-- In each directory of a tree, the entries have names, and no two of them the same. -/
inductive Proper : Entry → Prop
  | file (bytes : ByteArray) : Proper (.file bytes)
  | directory {entries : List (String × Entry)} (hnames : ∀ e ∈ entries, Path.IsName e.1)
    (hdistinct : (entries.map (·.1)).Nodup) (hbelow : ∀ e ∈ entries, Proper e.2) :
    Proper (.directory entries)

mutual

/-- all files of a tree -/
def places : Entry → List Place
  | .file bytes => [⟨[], bytes⟩]
  | .directory entries => placesIn entries

def placesIn : List (String × Entry) → List Place
  | [] => []
  | (name, e) :: es => (places e).map (·.below name) ++ placesIn es

end

/-! ### All files -/

theorem leads_directory_iff {entries : List (String × Entry)} {names : List String}
    {bytes : ByteArray} :
    Leads (.directory entries) names (.file bytes) ↔
      ∃ name e more, (name, e) ∈ entries ∧ names = name :: more ∧ Leads e more (.file bytes) := by
  constructor
  · rintro (_ | ⟨hmem, hmore⟩)
    exact ⟨_, _, _, hmem, rfl, hmore⟩
  · rintro ⟨name, e, more, hmem, rfl, hmore⟩
    exact .down hmem hmore

mutual

theorem mem_places_iff (e : Entry) (p : Place) :
    p ∈ places e ↔ Leads e p.names (.file p.bytes) := by
  match e with
  | .file bytes =>
    rw [places, List.mem_singleton]
    constructor
    · rintro rfl
      exact .here _
    · obtain ⟨names, bytes'⟩ := p
      rintro (_ | _)
      rfl
  | .directory entries => rw [places, mem_placesIn_iff, leads_directory_iff]

theorem mem_placesIn_iff (entries : List (String × Entry)) (p : Place) :
    p ∈ placesIn entries ↔
      ∃ name e more, (name, e) ∈ entries ∧ p.names = name :: more ∧
        Leads e more (.file p.bytes) := by
  match entries with
  | [] => simp [placesIn]
  | (name, e) :: es =>
    rw [placesIn, List.mem_append, List.mem_map, mem_placesIn_iff es p]
    constructor
    · rintro (⟨q, hq, rfl⟩ | ⟨n, f, more, hmem, hnames, hmore⟩)
      · exact ⟨name, e, q.names, List.mem_cons_self, rfl, (mem_places_iff e q).mp hq⟩
      · exact ⟨n, f, more, List.mem_cons_of_mem _ hmem, hnames, hmore⟩
    · rintro ⟨n, f, more, hmem, hnames, hmore⟩
      rcases List.mem_cons.mp hmem with heq | hmem
      · obtain ⟨rfl, rfl⟩ := Prod.mk.inj heq
        refine .inl ⟨⟨more, p.bytes⟩, (mem_places_iff f _).mpr hmore, ?_⟩
        rw [Place.below, ← hnames]
      · exact .inr ⟨n, f, more, hmem, hnames, hmore⟩

end

theorem nodup_placesIn {entries : List (String × Entry)} (hdistinct : (entries.map (·.1)).Nodup)
    (hbelow : ∀ e ∈ entries, ((places e.2).map (·.names)).Nodup) :
    ((placesIn entries).map (·.names)).Nodup := by
  induction entries with
  | nil => exact .nil
  | cons x es ih =>
    obtain ⟨name, e⟩ := x
    obtain ⟨hname, hdistinct⟩ := List.nodup_cons.mp hdistinct
    have hmore := ih hdistinct fun e he => hbelow e (List.mem_cons_of_mem _ he)
    have hfirst : (((places e).map (·.below name)).map (·.names)).Nodup := by
      have := (hbelow (name, e) List.mem_cons_self).map (List.cons_injective (a := name))
      rwa [List.map_map] at this ⊢
    rw [placesIn, List.map_append]
    refine hfirst.append hmore ?_
    intro names hnames hnames'
    -- both would be below an entry of one name
    rw [List.map_map] at hnames
    obtain ⟨p, -, rfl⟩ := List.mem_map.mp hnames
    obtain ⟨q, hq, heq⟩ := List.mem_map.mp hnames'
    obtain ⟨n, f, more, hmem, hq, -⟩ := (mem_placesIn_iff es q).mp hq
    obtain ⟨rfl, -⟩ := List.cons.inj (hq.symm.trans heq)
    exact hname (List.mem_map.mpr ⟨_, hmem, rfl⟩)

/-- No two files of a tree are at one place. -/
theorem Proper.nodup_places {e : Entry} (h : e.Proper) : ((places e).map (·.names)).Nodup := by
  induction h with
  | file bytes => exact List.nodup_singleton _
  | directory _ hdistinct _ ih => exact nodup_placesIn hdistinct ih

theorem Leads.isName {e f : Entry} {names : List String} (h : e.Leads names f) (he : e.Proper) :
    ∀ name ∈ names, Path.IsName name := by
  induction h with
  | here e => nofun
  | down hmem _ ih =>
    cases he with
    | directory hnames _ hbelow =>
      exact List.forall_mem_cons.mpr ⟨hnames _ hmem, ih (hbelow _ hmem)⟩

/-! ### Sources and documents -/

mutual

theorem inputs_eq (path : String) (e : Entry) :
    inputs path e = ((places e).map (·.found path)).filter fun f => Path.isInput f.path := by
  match e with
  | .file bytes =>
    rw [inputs, places, List.map_singleton, List.filter_cons, List.filter_nil]
    rfl
  | .directory entries => exact inputsIn_eq path entries

theorem inputsIn_eq (path : String) (entries : List (String × Entry)) :
    inputsIn path entries =
      ((placesIn entries).map (·.found path)).filter fun f => Path.isInput f.path := by
  match entries with
  | [] => rfl
  | (name, e) :: es =>
    rw [inputsIn, placesIn, List.map_append, List.filter_append, inputs_eq, inputsIn_eq path es,
      List.map_map]
    rfl

end

theorem inputsDirectlyIn_eq (path : String) (entries : List (String × Entry)) :
    inputsDirectlyIn path entries = (((placesIn entries).filter (·.isDirect)).map
      (·.found path)).filter fun f => Path.isInput f.path := by
  unfold inputsDirectlyIn
  induction entries with
  | nil => rfl
  | cons x es ih =>
    obtain ⟨name, e⟩ := x
    rw [placesIn, List.filter_append, List.map_append, List.filter_append, ← ih]
    cases e with
    | file bytes =>
      rw [List.filterMap_cons]
      by_cases hinput : Path.isInput (Path.join path name) = true
      · simp [places, Place.below, Place.isDirect, Place.found, Place.path, Path.descend, hinput]
      · simp [places, Place.below, Place.isDirect, Place.found, Place.path, Path.descend, hinput]
    | directory entries =>
      -- what is below another directory has two names at least
      have hnone : ((places (.directory entries)).map (·.below name)).filter (·.isDirect) = [] := by
        refine List.filter_eq_nil_iff.mpr fun p hp => ?_
        obtain ⟨q, hq, rfl⟩ := List.mem_map.mp hp
        obtain ⟨n, -, more, -, hnames, -⟩ := (mem_placesIn_iff entries q).mp hq
        simp [Place.below, Place.isDirect, hnames]
      rw [hnone]
      rfl

end Entry

theorem Place.isInput_path_iff {p : Place} (hnames : ∀ name ∈ p.names, Path.IsName name)
    (hne : p.names ≠ []) (directory : String) :
    Path.isInput (p.path directory) = true ↔ p.IsInput := by
  obtain ⟨names, bytes⟩ := p
  rcases List.eq_nil_or_concat names with rfl | ⟨front, name, rfl⟩
  · exact absurd rfl hne
  rw [List.concat_eq_append] at hnames ⊢
  have hjoin : Place.path directory ⟨front ++ [name], bytes⟩ =
      Path.join (Path.descend directory front) name := by
    simp [Place.path, Path.descend]
  rw [hjoin, Path.isInput_join_iff (hnames name (by simp))]
  simp [Place.IsInput]

/-! ### Looking up files -/

namespace FileTree

theorem step_of_mem {t : FileTree} {entries : List (String × Entry)} {name : String} {e : Entry}
    (hhere : t.here = .directory entries) (hname : Path.IsName name)
    (hdistinct : (entries.map (·.1)).Nodup) (hmem : (name, e) ∈ entries) :
    t.step name.toList = .ok ⟨e, t.here :: t.above⟩ := by
  have hfind : entries.find? (fun e => e.1.toList == name.toList) = some (name, e) := by
    clear hhere
    induction entries with
    | nil => cases hmem
    | cons x es ih =>
      obtain ⟨hx, hdistinct⟩ := List.nodup_cons.mp hdistinct
      rcases List.mem_cons.mp hmem with rfl | hmem
      · exact List.find?_cons_of_pos (by simp)
      · have hne : x.1 ≠ name := by
          rintro rfl
          exact hx (List.mem_map.mpr ⟨_, hmem, rfl⟩)
        rw [List.find?_cons_of_neg (by simpa [String.toList_inj] using hne), ih hdistinct hmem]
  unfold step
  rw [hhere]
  dsimp only
  rw [if_neg hname.noDots.1, if_neg hname.noDots.2, hfind]

theorem look_eq_ok_iff {t : FileTree} {path : String} {e : Entry} :
    t.look path = .ok e ↔ '\x00' ∉ path.toList ∧ path.toList ≠ [] ∧
      ∃ place, (Text.runs (· != '/') path.toList).foldlM step
          (if path.toList.head? = some '/' then t.root else t) = .ok place ∧
        place.here = e ∧ (path.toList.getLast? = some '/' → place.here.isFile = false) := by
  unfold look
  dsimp only
  split
  · rename_i hnul
    refine ⟨nofun, fun h => absurd ?_ h.1⟩
    simpa using hnul
  rename_i hnul
  split
  · rename_i hempty
    refine ⟨nofun, fun h => absurd ?_ h.2.1⟩
    simpa using hempty
  rename_i hempty
  cases (Text.runs (· != '/') path.toList).foldlM step
      (if path.toList.head? = some '/' then t.root else t) with
  | error err =>
    refine ⟨nofun, ?_⟩
    rintro ⟨-, -, place, hplace, -⟩
    cases hplace
  | ok place =>
    show (if _ then _ else _) = _ ↔ _
    split
    · rename_i hlast
      simp only [Bool.and_eq_true, decide_eq_true_eq] at hlast
      refine ⟨nofun, ?_⟩
      rintro ⟨-, -, _, hplace, -, hfile⟩
      obtain rfl := Except.ok.inj hplace
      rw [hfile hlast.1] at hlast
      cases hlast.2
    · rename_i hlast
      simp only [Bool.and_eq_true, decide_eq_true_eq, not_and, Bool.not_eq_true] at hlast
      constructor
      · intro h
        exact ⟨by simpa using hnul, by simpa using hempty, place, rfl, Except.ok.inj h, hlast⟩
      · rintro ⟨-, -, _, hplace, rfl, -⟩
        obtain rfl := Except.ok.inj hplace
        rfl

/-- A name is looked up in the directory that paths start from. -/
theorem look_name {t : FileTree} {entries : List (String × Entry)} {name : String} {e : Entry}
    (hhere : t.here = .directory entries) (hname : Path.IsName name)
    (hdistinct : (entries.map (·.1)).Nodup) (hmem : (name, e) ∈ entries) :
    t.look name = .ok e := by
  refine look_eq_ok_iff.mpr ⟨hname.noNul, hname.ne_nil, ⟨e, t.here :: t.above⟩, ?_, rfl,
    fun h => absurd (List.mem_of_getLast? h) hname.noSlash⟩
  rw [hname.runs_eq, if_neg fun h => hname.noSlash (List.mem_of_head? h), List.foldlM_cons,
    step_of_mem hhere hname hdistinct hmem]
  rfl

/-- A name in a directory leads on to its entry. -/
theorem look_join {t : FileTree} {directory : String} {entries : List (String × Entry)}
    (hlook : t.look directory = .ok (.directory entries)) {name : String} {e : Entry}
    (hname : Path.IsName name) (hdistinct : (entries.map (·.1)).Nodup)
    (hmem : (name, e) ∈ entries) : t.look (Path.join directory name) = .ok e := by
  obtain ⟨hnul, hne, place, hplace, hhere, -⟩ := look_eq_ok_iff.mp hlook
  obtain ⟨front, hjoin, hfirst, hmore⟩ : ∃ front : List Char,
      (Path.join directory name).toList = front ++ name.toList ∧
        front.head? = directory.toList.head? ∧ '\x00' ∉ front := by
    obtain ⟨front, hjoin, ⟨-, hd⟩ | ⟨s, rfl, hd | hd⟩⟩ := Path.toList_join directory name
    · exact absurd hd hne
    · rw [hd] at hnul hne ⊢
      exact ⟨_, hjoin, List.head?_append_of_ne_nil _ hne, by simp [hnul]⟩
    · rw [hd] at hnul ⊢
      exact ⟨_, hjoin, rfl, hnul⟩
  have hfront : front ≠ [] := by
    rintro rfl
    exact hne (List.head?_eq_none_iff.mp hfirst.symm)
  have hlast : (Path.join directory name).toList.getLast? ≠ some '/' := by
    rw [hjoin, List.getLast?_append_of_ne_nil _ hname.ne_nil]
    exact fun h => hname.noSlash (List.mem_of_getLast? h)
  refine look_eq_ok_iff.mpr ⟨?_, ?_, ⟨e, place.here :: place.above⟩, ?_, rfl, ?_⟩
  · rw [hjoin]
    simp [hmore, hname.noNul]
  · rw [hjoin]
    exact List.append_ne_nil_of_left_ne_nil hfront _
  · rw [hname.runs_join, List.foldlM_append, hjoin, List.head?_append_of_ne_nil _ hfront, hfirst,
      hplace]
    show [name.toList].foldlM step place = _
    rw [List.foldlM_cons, step_of_mem hhere hname hdistinct hmem]
    rfl
  · exact fun h => absurd h hlast

/-- **Files are where their paths lead.** -/
theorem look_descend {t : FileTree} {directory : String} {e f : Entry} {names : List String}
    (hlook : t.look directory = .ok e) (he : e.Proper) (h : e.Leads names f) :
    t.look (Path.descend directory names) = .ok f := by
  induction h generalizing directory with
  | here e => exact hlook
  | down hmem _ ih =>
    cases he with
    | directory hnames hdistinct hbelow =>
      exact ih (look_join hlook (hnames _ hmem) hdistinct hmem) (hbelow _ hmem)

end FileTree

end WordRole
