import WordRole.Proofs.Buffer.Cursor
import WordRole.Proofs.Lexing.Heredocs

/-!
# Lines of a buffer

Documentation and the bodies of heredocs are scanned line by line: a line is sliced out of the
buffer, and the cursor moves over it and the newline after it.

* `Cursor.skipPod_of_before`: documentation;
* `Cursor.tagAt?_of_before`, `Cursor.markerAt?_of_before`: the tag of a heredoc is found by
  distances from the cursor and sliced out between them;
* `Cursor.readBody_of_before`: the lines of a heredoc.
-/

namespace WordRole

open Text (Cut)

/-! ### The first line -/

theorem Text.Cut.through_of_lines {p : List Char → Bool} {s l rest : List Char}
    (h : lines s = l :: lines rest) :
    through p s = if p l then ⟨l, rest⟩ else (through p rest).after l := by
  unfold through
  rw [h]
  cases hp : p l with
  | true => simp [hp]
  | false =>
    simp only [List.takeWhile_cons, List.dropWhile_cons, hp]
    cases hd : (lines rest).dropWhile fun l => !p l <;> simp [Cut.after]

/-- The mark at the end of documentation is told by the line without its newline. -/
theorem Lexeme.isPrefixOf_podEnd_content (l : List Char) :
    podEnd.isPrefixOf (Text.content l) = podEnd.isPrefixOf l := by
  rw [Bool.eq_iff_iff, List.isPrefixOf_iff_prefix, List.isPrefixOf_iff_prefix]
  refine ⟨fun h => h.trans (List.takeWhile_prefix _), ?_⟩
  rintro ⟨rest, rfl⟩
  rw [Text.content, List.takeWhile_append_of_pos (by simp [podEnd])]
  exact List.prefix_append _ _

theorem Heredoc.read_cons (h : Heredoc) (l : List Char) (ls : List (List Char)) :
    h.read (l :: ls) =
      if h.isClosedBy l then (⟨h, [], some l⟩, ls)
      else ({ (h.read ls).1 with lines := l :: (h.read ls).1.lines }, (h.read ls).2) := by
  unfold read
  cases hl : h.isClosedBy l with
  | true => simp [hl]
  | false =>
    simp only [List.takeWhile_cons, List.dropWhile_cons, hl]
    cases hd : ls.dropWhile fun l => !h.isClosedBy l <;> simp

namespace Buffer.Cursor

/-! ### Documentation -/

section Lines

variable (text : List Char)

/-- Slices the rest of the line out of the buffer, and moves over it and its newline. -/
def nextLine (c : Cursor) : Option (List Char × Cursor) :=
  let d := c.skip text (· != '\n')
  (slice? text c.index d.index).map fun line => (line, d.bump text)

theorem lt_of_nextLine {c d : Cursor} {line : List Char} (hc : (c.peek text 0).isSome = true)
    (h : c.nextLine text = some (line, d)) : c.index < d.index := by
  obtain ⟨_, -, hd⟩ := Option.map_eq_some_iff.mp h
  obtain ⟨-, rfl⟩ := Prod.mk.inj hd
  rw [skip]
  split
  · have hbump := index_bump text hc
    have hskip := (c.bump text).index_le_skip text (· != '\n')
    have hlast := ((c.bump text).skip text (· != '\n')).index_le_bump text
    omega
  · rw [index_bump text hc]
    exact Nat.lt_succ_self _

/-- The cursor moves on with each line, so that less of the buffer is left. -/
theorem left_lt_of_nextLine {c d : Cursor} {line : List Char} (hc : (c.peek text 0).isSome = true)
    (h : c.nextLine text = some (line, d)) : text.length - d.index < text.length - c.index := by
  have hlt := lt_of_nextLine text hc h
  have hin := lt_length_of_peek text hc
  omega

def skipPod (c : Cursor) : Option Cursor :=
  if hc : (c.peek text 0).isSome then
    match hnext : c.nextLine text with
    | none => none
    | some (line, d) =>
      have := left_lt_of_nextLine text hc hnext
      if Lexeme.podEnd.isPrefixOf line then some d else d.skipPod
  else some c
termination_by text.length - c.index

end Lines

section Lines

variable {text : List Char} {c : Cursor}

theorem Before.nextLine_eq {l rest : List Char} (h : c.Before text (l ++ rest))
    (hcontent : Text.content (l ++ rest) = Text.content l)
    (hend : l = Text.content l ++ ['\n'] ∨ l = Text.content l ∧ rest = []) :
    c.nextLine text = some (Text.content l, c.advance l) := by
  have hskip : c.skip text (· != '\n') = c.advance (Text.content l) := by
    rw [skip_of_before h, ← Text.content, hcontent]
  unfold nextLine
  dsimp only
  rw [hskip]
  rcases hend with hend | ⟨hend, rfl⟩
  · rw [hend, List.append_assoc] at h
    rw [h.slice?_advance, h.advance.bump, advance_advance, ← hend]
    rfl
  · rw [← hend, h.slice?_advance, h.advance.bump_nil]
    rfl

/-- The next line of what is left, unless nothing is. -/
theorem Before.exists_nextLine {s : List Char} (h : c.Before text s) (hs : s ≠ []) :
    ∃ l rest, s = l ++ rest ∧ l ≠ [] ∧ Text.lines s = l :: Text.lines rest ∧
      c.nextLine text = some (Text.content l, c.advance l) := by
  obtain ⟨l, rest, rfl, hl, hlines, hcontent, hend⟩ := Text.exists_first_line hs
  exact ⟨l, rest, rfl, hl, hlines, h.nextLine_eq hcontent hend⟩

theorem skipPod_of_nextLine {line : List Char} {d : Cursor} (hc : (c.peek text 0).isSome = true)
    (hline : c.nextLine text = some (line, d)) :
    c.skipPod text = if Lexeme.podEnd.isPrefixOf line then some d else d.skipPod text := by
  rw [skipPod, dif_pos hc]
  split
  · simp_all
  · rename_i hnext
    rw [hline] at hnext
    obtain ⟨rfl, rfl⟩ := Prod.mk.inj (Option.some.inj hnext)
    rfl

/-- Documentation is scanned without failing, and as far as it goes. -/
theorem skipPod_of_before {s : List Char} (h : c.Before text s) :
    c.skipPod text = some (c.advance (Lexeme.pod s).taken) := by
  induction hn : s.length using Nat.strongRecOn generalizing c s with
  | ind n ih =>
    by_cases hs : s = []
    · subst hs
      rw [skipPod, dif_neg (by simp [h.peek])]
      rfl
    have hc := h.isSome_peek hs
    obtain ⟨l, rest, rfl, hl, hlines, hline⟩ := h.exists_nextLine hs
    have hpos := List.length_pos_iff.mpr hl
    rw [skipPod_of_nextLine hc hline, Lexeme.isPrefixOf_podEnd_content, Lexeme.pod,
      Cut.through_of_lines hlines]
    split
    · rfl
    · rw [ih _ (by rw [← hn, List.length_append]; omega) h.advance rfl, Cut.taken_after,
        advance_advance]
      rfl

end Lines

/-! ### Markers of heredocs -/

section Markers

variable (text : List Char)

/-- The tag at a distance from the cursor, in quotes of either kind or bare, with the distance
after it. -/
def tagAt? (offset : Nat) (c : Cursor) : Option (Option (List Char × Nat)) :=
  match c.peek text offset with
  | none => some none
  | some ch =>
    if ch = '"' || ch = '\'' then
      let stop := c.offsetWhile text (fun d => d != ch && d != '\n') (offset + 1)
      if c.peek text stop = some ch then
        (slice? text (c.index + (offset + 1)) (c.index + stop)).map fun tag =>
          some (tag, stop + 1)
      else some none
    else if isNameStart ch then
      let stop := c.offsetWhile text isNameChar offset
      (slice? text (c.index + offset) (c.index + stop)).map fun tag => some (tag, stop)
    else some none

/-- The marker at the cursor, with the distance after it. -/
def markerAt? (c : Cursor) : Option (Option (Heredoc × Nat)) :=
  if c.peek text 0 = some '<' ∧ c.peek text 1 = some '<' then
    let indented := c.peek text 2 = some '~'
    (c.tagAt? text (if indented then 3 else 2)).map fun tag? =>
      tag?.map fun tag => (⟨tag.1, indented, c.position⟩, tag.2)
  else some none

end Markers

section Markers

variable {text : List Char} {c : Cursor}

/-- A tag is found without leaving the buffer. -/
theorem tagAt?_of_before {a s : List Char} (h : c.Before text (a ++ s)) :
    c.tagAt? text a.length =
      some ((Heredoc.tag? s).map fun tag => (tag.1, a.length + tag.2.taken.length)) := by
  unfold tagAt?
  rw [h.peek, List.getElem?_append_right (Nat.le_refl _), Nat.sub_self]
  cases s with
  | nil => rfl
  | cons ch s =>
    dsimp only [List.getElem?_cons_zero]
    rw [Heredoc.tag?]
    by_cases hquote : (decide (ch = '"') || decide (ch = '\'')) = true
    · -- the loop stops at the quote, at the end of the line or at that of the buffer
      have htag : c.Before text ((a ++ [ch]) ++ s) := by simpa using h
      have hlength : (a ++ [ch]).length = a.length + 1 := List.length_append
      obtain ⟨hslice, hpeek⟩ := htag.offsetWhile fun d => d != ch && d != '\n'
      have hstop := offsetWhile_of_before htag fun d => d != ch && d != '\n'
      rw [hlength] at hslice hpeek hstop
      unfold Cut.span
      dsimp only
      rw [if_pos hquote, if_pos hquote, hslice, hpeek, hstop]
      cases s.dropWhile fun d => d != ch && d != '\n' with
      | nil => rfl
      | cons d rest =>
        dsimp only [List.getElem?_cons_zero]
        by_cases hd : d = ch
        · rw [if_pos (congrArg some hd), if_pos hd]
          simp [Nat.add_assoc, Nat.add_comm 1]
        · rw [if_neg (by simpa using hd), if_neg hd]
          rfl
    rw [if_neg hquote, if_neg hquote]
    by_cases hname : isNameStart ch = true
    · rw [if_pos hname, if_pos hname, (h.offsetWhile isNameChar).1,
        offsetWhile_of_before h isNameChar]
      rfl
    · rw [if_neg hname, if_neg hname]
      rfl

/-- A marker is found without leaving the buffer. -/
theorem markerAt?_of_before {s : List Char} (h : c.Before text s) :
    c.markerAt? text =
      some ((Heredoc.marker? c.position s).map fun marker =>
        (marker.1, marker.2.taken.length)) := by
  unfold markerAt?
  simp only [h.peek]
  match s, h with
  | [], _ => rfl
  | [ch], _ => rw [if_neg (by simp), Heredoc.marker?_eq_none_of_head? (by simp)]; rfl
  | ch :: d :: s, h =>
    by_cases hangles : ch = '<' ∧ d = '<'
    · obtain ⟨rfl, rfl⟩ := hangles
      rw [if_pos ⟨rfl, rfl⟩, Heredoc.marker?_of_tag]
      have hmark : (('<' :: '<' :: s)[2]? = some '~') = (s.head? = some '~') := by
        rw [List.head?_eq_getElem?]
        rfl
      simp only [hmark]
      by_cases hindented : s.head? = some '~'
      · obtain ⟨s, rfl⟩ := List.head?_eq_some_iff.mp hindented
        have htag : c.tagAt? text 3 = _ := tagAt?_of_before (a := ['<', '<', '~']) h
        simp only [List.head?_cons, if_true, decide_true, htag, Option.map_some, List.tail_cons]
        cases Heredoc.tag? s with
        | none => rfl
        | some tag => simp; omega
      · have htag : c.tagAt? text 2 = _ := tagAt?_of_before (a := ['<', '<']) h
        simp only [hindented, if_false, decide_false, htag, Option.map_some]
        cases Heredoc.tag? s with
        | none => rfl
        | some tag => simp; omega
    · rw [if_neg (by simpa using hangles),
        Heredoc.marker?_eq_none_of_head? (by simpa using hangles)]
      rfl

end Markers

/-! ### Bodies of heredocs -/

section Bodies

variable (text : List Char)

/-- Scans the lines of a heredoc up to its terminator, adds them to what has been read, and tells
whether the terminator has been found. -/
def readBody (h : Heredoc) (body : List Char) (c : Cursor) : Option (Bool × List Char × Cursor) :=
  if hc : (c.peek text 0).isSome then
    match hnext : c.nextLine text with
    | none => none
    | some (line, d) =>
      have := left_lt_of_nextLine text hc hnext
      if (if h.indented then Text.trimStart line else line) = h.terminator then
        some (true, body, d)
      else d.readBody h (body ++ '\n' :: line)
  else some (false, body, c)
termination_by text.length - c.index

end Bodies

section Bodies

variable {text : List Char} {c : Cursor}

theorem readBody_of_nextLine (h : Heredoc) (body : List Char) {line : List Char} {d : Cursor}
    (hc : (c.peek text 0).isSome = true) (hline : c.nextLine text = some (line, d)) :
    c.readBody text h body =
      if (if h.indented then Text.trimStart line else line) = h.terminator then
        some (true, body, d)
      else d.readBody text h (body ++ '\n' :: line) := by
  rw [readBody, dif_pos hc]
  split
  · simp_all
  · rename_i hnext
    rw [hline] at hnext
    obtain ⟨rfl, rfl⟩ := Prod.mk.inj (Option.some.inj hnext)
    rfl

/-- The lines of a heredoc are scanned without failing, and as far as they go. -/
theorem readBody_of_before (h : Heredoc) (body : List Char) {s : List Char}
    (hb : c.Before text s) :
    let read := (h.read (Text.lines s)).1
    c.readBody text h body =
      some (read.closing.isSome, body ++ read.text, c.advance read.source.flatten) := by
  dsimp only
  induction hn : s.length using Nat.strongRecOn generalizing c s body with
  | ind n ih =>
    by_cases hs : s = []
    · subst hs
      rw [readBody, dif_neg (by simp [hb.peek])]
      simp [Text.lines, Heredoc.read, Heredoc.Body.text, Heredoc.Body.source]
    have hc := hb.isSome_peek hs
    obtain ⟨l, rest, rfl, hl, hlines, hline⟩ := hb.exists_nextLine hs
    have hpos := List.length_pos_iff.mpr hl
    have hclosed : h.isClosedBy l = true ↔
        (if h.indented then Text.trimStart (Text.content l) else Text.content l) =
          h.terminator := beq_iff_eq
    rw [readBody_of_nextLine h body hc hline, hlines, Heredoc.read_cons]
    by_cases hcloses : h.isClosedBy l = true
    · rw [if_pos (hclosed.mp hcloses), if_pos hcloses]
      simp [Heredoc.Body.text, Heredoc.Body.source]
    · rw [if_neg (hcloses ∘ hclosed.mpr), if_neg hcloses,
        ih _ (by rw [← hn, List.length_append]; omega) _ hb.advance rfl]
      simp [Heredoc.Body.text, Heredoc.Body.source]

end Bodies

end Buffer.Cursor

end WordRole
