import WordRole.Text.Blank
import WordRole.Text.Lines
import WordRole.Token

/-!
# Heredocs

A marker such as `<<EOT` stands for the lines after its own, up to a line that is its tag.  A tag in
quotes may hold any characters, and `<<~` lets the last line be indented.  `Heredoc.bodies` takes
the lines of several heredocs, one after the other:

* `Heredoc.source_readAll`: their lines are consecutive and none is lost.
-/

namespace WordRole

open Text (Cut)

structure Heredoc where
  terminator : List Char
  indented : Bool
  /-- where the marker stands -/
  position : Position
deriving DecidableEq, Repr, Inhabited

namespace Heredoc

/-- The lines that a heredoc takes, each with its newline. -/
structure Body where
  heredoc : Heredoc
  lines : List (List Char)
  /-- the terminator's line, if there is one -/
  closing : Option (List Char)
deriving DecidableEq, Repr, Inhabited

namespace Body

/-- what the lines add to the text of the marker -/
def text (b : Body) : List Char := b.lines.flatMap fun l => '\n' :: Text.content l

/-- the lines as they stand in the source -/
def source (b : Body) : List (List Char) := b.lines ++ b.closing.toList

end Body

/-! ## Markers -/

/-- Takes a tag, in quotes of either kind or bare, with the tag itself. -/
def tag? : List Char → Option (List Char × Cut)
  | [] => none
  | c :: cs =>
    if c = '"' || c = '\'' then
      let tag := Cut.span (fun d => d != c && d != '\n') cs
      match tag.rest with
      | [] => none
      | d :: rest => if d = c then some (tag.taken, ⟨c :: tag.taken ++ [d], rest⟩) else none
    else if isNameStart c then
      some ((Cut.span isNameChar (c :: cs)).taken, .span isNameChar (c :: cs))
    else none

/-- Takes a marker that stands at a position. -/
def marker? (position : Position) : List Char → Option (Heredoc × Cut)
  | '<' :: '<' :: '~' :: cs =>
    (tag? cs).map fun t => (⟨t.1, true, position⟩, t.2.after ['<', '<', '~'])
  | '<' :: '<' :: cs => (tag? cs).map fun t => (⟨t.1, false, position⟩, t.2.after ['<', '<'])
  | _ => none

/-! ## Lines -/

def isClosedBy (h : Heredoc) (line : List Char) : Bool :=
  (if h.indented then Text.trimStart (Text.content line) else Text.content line) == h.terminator

/-- Takes the lines of a heredoc and its terminator from a list of lines. -/
def read (h : Heredoc) (ls : List (List Char)) : Body × List (List Char) :=
  let body := ls.takeWhile fun l => !h.isClosedBy l
  match ls.dropWhile fun l => !h.isClosedBy l with
  | [] => (⟨h, body, none⟩, [])
  | l :: ls => (⟨h, body, some l⟩, ls)

def readAll : List Heredoc → List (List Char) → List Body × List (List Char)
  | [], ls => ([], ls)
  | h :: hs, ls => ((h.read ls).1 :: (readAll hs (h.read ls).2).1, (readAll hs (h.read ls).2).2)

def bodies (hs : List Heredoc) (s : List Char) : List Body × Cut :=
  let read := readAll hs (Text.lines s)
  (read.1, ⟨(read.1.flatMap Body.source).flatten, read.2.flatten⟩)

/-! ### Nothing is lost -/

theorem whole_tag? {s t : List Char} {cut : Cut} (h : tag? s = some (t, cut)) : cut.whole = s := by
  unfold tag? at h
  split at h
  · simp at h
  · rename_i c cs
    split at h
    · have hw := Cut.whole_span (fun d => d != c && d != '\n') cs
      dsimp only at h
      split at h
      · simp at h
      · rename_i d rest hr
        rw [Cut.whole, hr] at hw
        split at h
        · obtain ⟨-, rfl⟩ := Prod.mk.inj (Option.some.inj h)
          simpa [Cut.whole] using hw
        · simp at h
    · split at h
      · obtain ⟨-, rfl⟩ := Prod.mk.inj (Option.some.inj h)
        simp
      · simp at h

theorem whole_marker? {p : Position} {s : List Char} {h : Heredoc} {cut : Cut}
    (hm : marker? p s = some (h, cut)) : cut.whole = s ∧ cut.taken ≠ [] := by
  unfold marker? at hm
  split at hm
  · obtain ⟨⟨t, u⟩, ht, he⟩ := Option.map_eq_some_iff.mp hm
    obtain ⟨-, rfl⟩ := Prod.mk.inj he
    simp [whole_tag? ht]
  · obtain ⟨⟨t, u⟩, ht, he⟩ := Option.map_eq_some_iff.mp hm
    obtain ⟨-, rfl⟩ := Prod.mk.inj he
    simp [whole_tag? ht]
  · simp at hm

theorem source_read (h : Heredoc) (ls : List (List Char)) :
    (h.read ls).1.source ++ (h.read ls).2 = ls := by
  have hl := List.takeWhile_append_dropWhile (p := fun l => !h.isClosedBy l) (l := ls)
  unfold read
  dsimp only
  split
  · rename_i hd
    simpa [hd, Body.source] using hl
  · rename_i l ls' hd
    simpa [hd, Body.source] using hl

theorem source_readAll (hs : List Heredoc) (ls : List (List Char)) :
    (readAll hs ls).1.flatMap Body.source ++ (readAll hs ls).2 = ls := by
  induction hs generalizing ls with
  | nil => rfl
  | cons h hs ih => simp [readAll, ih, source_read]

@[simp] theorem whole_bodies (hs : List Heredoc) (s : List Char) : (bodies hs s).2.whole = s := by
  have h := congrArg List.flatten (source_readAll hs (Text.lines s))
  rw [List.flatten_append, Text.flatten_lines] at h
  exact h

theorem source_read_ne_nil (h : Heredoc) {ls : List (List Char)} (hls : ls ≠ []) :
    (h.read ls).1.source ≠ [] := by
  have hs := source_read h ls
  intro he
  rw [he, List.nil_append] at hs
  unfold read at hs he
  split at hs
  · exact hls hs.symm
  · rename_i l ls' hd
    rw [hd] at he
    simp [Body.source] at he

theorem taken_bodies_ne_nil {hs : List Heredoc} (hh : hs ≠ []) (c : Char) (cs : List Char) :
    (bodies hs (c :: cs)).2.taken ≠ [] := by
  cases hs with
  | nil => exact absurd rfl hh
  | cons h hs =>
    obtain ⟨l, hl⟩ :=
      List.exists_mem_of_ne_nil _ (source_read_ne_nil h (Text.lines_cons_ne_nil c cs))
    have hm : l ∈ Text.lines (c :: cs) := by
      rw [← source_read h (Text.lines (c :: cs))]
      exact List.mem_append_left _ hl
    intro he
    have hnil := List.flatten_eq_nil_iff.mp he l (by simp [readAll, hl])
    exact Text.ne_nil_of_mem_lines hm hnil

end Heredoc

end WordRole
