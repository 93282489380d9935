import WordRole.CommandLine.Arguments

/-!
# The items of an analysis

The arguments of an analysis, without the flags that ask for a trace, are accepted just if they can
be read from left to right as items: flags, settings files after their flag, and at most one target.
Items of different kinds may stand in any order (`Arguments.parse_eq_ok_iff_reads`).

* `Arguments.addAll_written`, `Arguments.exists_item_of_addAll`: the first item of a list of
  arguments;
* `Arguments.addAll_eq_ok_iff`: all of them.
-/

namespace WordRole.Arguments

/-- What an argument says, or a flag with the argument after it. -/
inductive Item where
  | mode (m : Mode)
  | json
  | verbose
  | config (path : String)
  | target (text : String)
deriving DecidableEq, Repr

namespace Item

def written : Item → List String
  | mode .strict => ["--strict"]
  | mode .permissive => ["--permissive"]
  | json => ["--json"]
  | verbose => ["--verbose"]
  | config path => ["--config", path]
  | target text => [text]

def mode? : Item → Option Mode
  | mode m => some m
  | _ => .none

def config? : Item → Option String
  | config path => some path
  | _ => .none

def target? : Item → Option String
  | target text => some text
  | _ => .none

end Item

/-- Items that arguments can be read as, from left to right. -/
structure Reads (args : List String) (items : List Item) : Prop where
  written : args = items.flatMap (·.written)
  plain : ∀ text, .target text ∈ items → isFlag text = false
  single : (items.filterMap (·.target?)).length ≤ 1

/-- what items ask for: the last mode, the last settings file, and all flags -/
def ofItems (items : List Item) : Arguments where
  target := (items.filterMap (·.target?)).getLast?
  mode := (items.filterMap (·.mode?)).getLast?
  json := decide (.json ∈ items)
  verbose := decide (.verbose ∈ items)
  config := (items.filterMap (·.config?)).getLast?

/-! ### One item -/

def take (a : Arguments) : Item → Arguments
  | .mode m => { a with mode := some m }
  | .json => { a with json := true }
  | .verbose => { a with verbose := true }
  | .config path => { a with config := some path }
  | .target text => { a with target := some text }

/-- An item that may follow what has been read: a target is no flag and the only one. -/
def Admits (a : Arguments) (item : Item) : Prop :=
  ∀ text, item = .target text → isFlag text = false ∧ a.target = .none

theorem ne_of_isFlag {arg flag : String} (harg : isFlag arg = false) (hflag : isFlag flag = true) :
    arg ≠ flag := by
  rintro rfl
  rw [harg] at hflag
  cases hflag

theorem add_target {a : Arguments} {text : String} (hplain : isFlag text = false)
    (hnone : a.target = .none) : a.add text = .ok (a.take (.target text)) := by
  unfold add
  rw [if_neg (ne_of_isFlag hplain (by decide)), if_neg (ne_of_isFlag hplain (by decide)),
    if_neg (ne_of_isFlag hplain (by decide)), if_neg (ne_of_isFlag hplain (by decide)),
    if_pos (by simp [hplain, hnone])]
  rfl

theorem addAll_config (a : Arguments) (path : String) (args : List String) :
    a.addAll ("--config" :: path :: args) = (a.take (.config path)).addAll args := by
  rw [addAll, if_pos rfl]
  rfl

theorem addAll_of_ne {arg : String} (h : arg ≠ "--config") (a : Arguments) (args : List String) :
    a.addAll (arg :: args) = (a.add arg).bind (·.addAll args) := by
  rw [addAll.eq_def]
  dsimp only
  rw [if_neg h]
  cases a.add arg <;> rfl

/-- What an argument adds that is accepted on its own. -/
theorem exists_item_of_add {a b : Arguments} {arg : String} (h : a.add arg = .ok b) :
    ∃ item, item.written = [arg] ∧ a.Admits item ∧ b = a.take item := by
  unfold add at h
  split at h
  · rename_i harg
    exact ⟨.mode .strict, by rw [harg]; rfl, nofun, (Except.ok.inj h).symm⟩
  split at h
  · rename_i harg
    exact ⟨.mode .permissive, by rw [harg]; rfl, nofun, (Except.ok.inj h).symm⟩
  split at h
  · rename_i harg
    exact ⟨.json, by rw [harg]; rfl, nofun, (Except.ok.inj h).symm⟩
  split at h
  · rename_i harg
    exact ⟨.verbose, by rw [harg]; rfl, nofun, (Except.ok.inj h).symm⟩
  split at h
  · rename_i htarget
    refine ⟨.target arg, rfl, ?_, (Except.ok.inj h).symm⟩
    rintro text heq
    obtain rfl := Item.target.inj heq
    simpa using htarget
  · cases h

/-- An item at the beginning of a list of arguments is read first. -/
theorem addAll_written {a : Arguments} {item : Item} (h : a.Admits item) (args : List String) :
    a.addAll (item.written ++ args) = (a.take item).addAll args := by
  -- an item that is one argument
  have single : ∀ arg, arg ≠ "--config" → a.add arg = .ok (a.take item) →
      a.addAll (arg :: args) = (a.take item).addAll args := by
    intro arg hne hadd
    rw [addAll_of_ne hne, hadd]
    rfl
  cases item with
  | mode m => cases m <;> exact single _ (by decide) (by simp [add, take])
  | json => exact single _ (by decide) (by simp [add, take])
  | verbose => exact single _ (by decide) (by simp [add, take])
  | config path => exact addAll_config a path args
  | target text =>
    obtain ⟨hplain, hnone⟩ := h text rfl
    exact single text (ne_of_isFlag hplain (by decide)) (add_target hplain hnone)

/-- Arguments that are accepted begin with an item. -/
theorem exists_item_of_addAll {a b : Arguments} {arg : String} {args : List String}
    (h : a.addAll (arg :: args) = .ok b) :
    ∃ item more, arg :: args = item.written ++ more ∧ a.Admits item ∧
      (a.take item).addAll more = .ok b := by
  by_cases hconfig : arg = "--config"
  · subst hconfig
    cases args with
    | nil =>
      rw [addAll, if_pos rfl] at h
      cases h
    | cons path args =>
      rw [addAll_config] at h
      exact ⟨.config path, args, rfl, nofun, h⟩
  · rw [addAll_of_ne hconfig] at h
    cases hadd : a.add arg with
    | error e =>
      rw [hadd] at h
      cases h
    | ok next =>
      rw [hadd] at h
      obtain ⟨item, hwritten, hadmits, rfl⟩ := exists_item_of_add hadd
      exact ⟨item, args, by rw [hwritten]; rfl, hadmits, h⟩

/-! ### All items -/

/-- Items that may follow what has been read. -/
structure Follow (a : Arguments) (items : List Item) : Prop where
  plain : ∀ text, .target text ∈ items → isFlag text = false
  single : (a.target.toList ++ items.filterMap (·.target?)).length ≤ 1

theorem follow_cons_iff {a : Arguments} {item : Item} {items : List Item} :
    a.Follow (item :: items) ↔ a.Admits item ∧ (a.take item).Follow items := by
  constructor
  · rintro ⟨hplain, hsingle⟩
    refine ⟨?_, fun text h => hplain text (List.mem_cons_of_mem _ h), ?_⟩
    · rintro text rfl
      refine ⟨hplain text List.mem_cons_self, ?_⟩
      cases htarget : a.target with
      | none => rfl
      | some t => simp [htarget, Item.target?] at hsingle
    · cases item with
      | target text =>
        change (a.target.toList ++ text :: items.filterMap (·.target?)).length ≤ 1 at hsingle
        show ([text] ++ items.filterMap (·.target?)).length ≤ 1
        rw [List.length_append] at hsingle ⊢
        rw [List.length_cons] at hsingle
        rw [List.length_singleton]
        omega
      | _ => exact hsingle
  · rintro ⟨hadmits, hplain, hsingle⟩
    refine ⟨fun text h => ?_, ?_⟩
    · rcases List.mem_cons.mp h with heq | h
      · exact (hadmits text heq.symm).1
      · exact hplain text h
    · cases item with
      | target text =>
        rw [(hadmits text rfl).2]
        exact hsingle
      | _ => exact hsingle

/-- **Reading.**  Arguments are accepted just if they are written with items that may follow, and
these are taken one after the other. -/
theorem addAll_eq_ok_iff {a b : Arguments} {args : List String} :
    a.addAll args = .ok b ↔
      ∃ items : List Item, args = items.flatMap (·.written) ∧ a.Follow items ∧
        b = items.foldl take a := by
  constructor
  · intro h
    induction hn : args.length using Nat.strongRecOn generalizing a args with
    | ind n ih =>
      cases args with
      | nil =>
        refine ⟨[], rfl, ⟨nofun, ?_⟩, (Except.ok.inj h).symm⟩
        cases a.target <;> simp
      | cons arg args =>
        obtain ⟨item, more, hargs, hadmits, hmore⟩ := exists_item_of_addAll h
        have hlt : more.length < n := by
          rw [← hn, hargs, List.length_append]
          have hwritten : 0 < item.written.length := by
            cases item with
            | mode m => cases m <;> exact Nat.one_pos
            | _ => exact Nat.succ_pos _
          omega
        obtain ⟨items, rfl, hfollow, hb⟩ := ih more.length hlt hmore rfl
        exact ⟨item :: items, hargs, follow_cons_iff.mpr ⟨hadmits, hfollow⟩, hb⟩
  · rintro ⟨items, rfl, hfollow, rfl⟩
    induction items generalizing a with
    | nil => rfl
    | cons item items ih =>
      obtain ⟨hadmits, hfollow⟩ := follow_cons_iff.mp hfollow
      rw [List.flatMap_cons, addAll_written hadmits, ih hfollow]
      rfl

theorem foldl_take (a : Arguments) (items : List Item) :
    items.foldl take a =
      { target := (items.filterMap (·.target?)).getLast?.or a.target
        mode := (items.filterMap (·.mode?)).getLast?.or a.mode
        json := decide (.json ∈ items) || a.json
        verbose := decide (.verbose ∈ items) || a.verbose
        config := (items.filterMap (·.config?)).getLast?.or a.config } := by
  induction items generalizing a with
  | nil => simp
  | cons item items ih =>
    rw [List.foldl_cons, ih]
    cases item <;>
      simp [take, Item.target?, Item.mode?, Item.config?, List.getLast?_cons, Option.or_some]

theorem reads_iff_follow {args : List String} {items : List Item} :
    Reads args items ↔ args = items.flatMap (·.written) ∧ none.Follow items :=
  ⟨fun h => ⟨h.written, h.plain, h.single⟩, fun h => ⟨h.1, h.2.plain, h.2.single⟩⟩

theorem parse_of_reads {args : List String} {items : List Item} (h : Reads args items) :
    parse args = .ok (ofItems items) := by
  obtain ⟨hwritten, hfollow⟩ := reads_iff_follow.mp h
  refine addAll_eq_ok_iff.mpr ⟨items, hwritten, hfollow, ?_⟩
  rw [foldl_take]
  simp [ofItems, none]

theorem exists_reads_of_parse {args : List String} {a : Arguments} (h : parse args = .ok a) :
    ∃ items, Reads args items ∧ a = ofItems items := by
  obtain ⟨items, hwritten, hfollow, -⟩ := addAll_eq_ok_iff.mp h
  have hreads := reads_iff_follow.mpr ⟨hwritten, hfollow⟩
  refine ⟨items, hreads, ?_⟩
  rw [parse_of_reads hreads] at h
  exact (Except.ok.inj h).symm

/-! ### Reordering -/

/-- Items may change places, except modes among each other and settings files among each other. -/
structure Reordered (items items' : List Item) : Prop where
  perm : items'.Perm items
  modes : items'.filterMap (·.mode?) = items.filterMap (·.mode?)
  configs : items'.filterMap (·.config?) = items.filterMap (·.config?)

theorem Reordered.reads {items items' : List Item} (h : Reordered items items')
    {args : List String} (hreads : Reads args items) :
    Reads (items'.flatMap (·.written)) items' where
  written := rfl
  plain text hmem := hreads.plain text (h.perm.mem_iff.mp hmem)
  single := by
    rw [(h.perm.filterMap _).length_eq]
    exact hreads.single

theorem Reordered.ofItems_eq {items items' : List Item} (h : Reordered items items')
    (hsingle : (items.filterMap (·.target?)).length ≤ 1) : ofItems items' = ofItems items := by
  have htargets : items'.filterMap (·.target?) = items.filterMap (·.target?) := by
    have hperm := h.perm.filterMap (·.target?)
    generalize items.filterMap (·.target?) = targets at hperm hsingle
    match targets with
    | [] => exact hperm.eq_nil
    | [text] => exact List.perm_singleton.mp hperm
    | _ :: _ :: _ => simp at hsingle
  simp only [ofItems, htargets, h.modes, h.configs, h.perm.mem_iff]

/-- **Items.**  Arguments are accepted just if what is left of them without the flags that ask for a
trace can be read as items, and then they ask for what the items do.  So it does not matter where
the items stand, as long as modes and settings files keep their order. -/
theorem parse_eq_ok_iff_reads (args : List String) :
    (∀ a, parse (untraced args) = .ok a ↔
      ∃ items, Reads (untraced args) items ∧ a = ofItems items) ∧
    ∀ items items', Reads (untraced args) items → Reordered items items' →
      ∀ args', untraced args' = items'.flatMap (·.written) →
        parse (untraced args') = parse (untraced args) := by
  refine ⟨fun a => ⟨exists_reads_of_parse, ?_⟩, ?_⟩
  · rintro ⟨items, hreads, rfl⟩
    exact parse_of_reads hreads
  · intro items items' hreads hordered args' hwritten
    rw [hwritten, parse_of_reads (hordered.reads hreads), parse_of_reads hreads,
      hordered.ofItems_eq hreads.single]

/-- A settings file may be named like a flag, also where only a trace flag stands between. -/
theorem parse_eq_ok_iff_reads_configNamedLikeFlag :
    let args := ["--permissive", "--config", "--debug-trace", "--json", "lib", "--strict"]
    let args' := ["lib", "--permissive", "--strict", "--debug-trace", "--config", "--json"]
    let items : List Item := [.mode .permissive, .config "--json", .target "lib", .mode .strict]
    let items' : List Item := [.target "lib", .mode .permissive, .mode .strict, .config "--json"]
    Reads (untraced args) items ∧ Reordered items items' ∧
      parse (untraced args) =
        .ok ⟨some "lib", some .strict, false, false, some "--json"⟩ ∧
      parse (untraced args') = parse (untraced args) := by
  intro args args' items items'
  have hreads : Reads (untraced args) items := by
    refine ⟨by decide, fun text h => ?_, by decide⟩
    obtain rfl : text = "lib" := by simpa [items] using h
    decide
  have hordered : Reordered items items' := ⟨by decide, by decide, by decide⟩
  have hparse := parse_eq_ok_iff_reads args
  exact ⟨hreads, hordered, (hparse.1 _).mpr ⟨items, hreads, by decide⟩,
    hparse.2 items items' hreads hordered args' (by decide)⟩

end WordRole.Arguments
