import Mathlib.Data.List.TakeWhile
import WordRole.Text.Lines

/-!
# Lines and newlines

Each line of a text ends with its newline, which stands nowhere else in it, and only the last line
may do without (`Text.AreLines`).

* `Text.areLines_iff`: this settles what the lines of a text are;
* `Text.exists_first_line`: the first line, and those of what follows it;
* `Text.AreLines.exists_line_at`: the line in which a place of a text lies.
-/

namespace WordRole.Text

/-- The lines that a text is made up of. -/
inductive AreLines : List (List Char) → List Char → Prop
  | nil : AreLines [] []
  | last {l : List Char} (hl : l ≠ []) (h : '\n' ∉ l) : AreLines [l] l
  | cons {l : List Char} {ls : List (List Char)} {s : List Char} (h : '\n' ∉ l)
      (hs : AreLines ls s) : AreLines ((l ++ ['\n']) :: ls) (l ++ '\n' :: s)

/-! ### The first line -/

theorem newline_notMem_content (l : List Char) : '\n' ∉ content l := by
  intro h
  simpa using List.all_eq_true.mp List.all_takeWhile _ h

/-- The first line of a text, and the lines of what follows it. -/
theorem exists_first_line {s : List Char} (hs : s ≠ []) :
    ∃ l rest, s = l ++ rest ∧ l ≠ [] ∧ lines s = l :: lines rest ∧ content s = content l ∧
      (l = content l ++ ['\n'] ∨ l = content l ∧ rest = []) := by
  induction s with
  | nil => exact absurd rfl hs
  | cons c s ih =>
    unfold content at ih ⊢
    by_cases hc : c = '\n'
    · subst hc
      exact ⟨['\n'], s, rfl, by simp, rfl, rfl, .inl rfl⟩
    rw [lines, if_neg hc]
    have hcons : ∀ t : List Char, (c :: t).takeWhile (· != '\n') = c :: t.takeWhile (· != '\n') :=
      fun t => List.takeWhile_cons_of_pos (by simpa using hc)
    cases s with
    | nil => exact ⟨[c], [], rfl, by simp, rfl, rfl, .inr ⟨by rw [hcons]; rfl, rfl⟩⟩
    | cons d s =>
      obtain ⟨l, rest, hwhole, -, hlines, hcontent, hend⟩ := ih (List.cons_ne_nil d s)
      refine ⟨c :: l, rest, congrArg (c :: ·) hwhole, by simp, ?_, ?_, ?_⟩
      · rw [hlines]
      · rw [hcons, hcons, hcontent]
      · rw [hcons]
        exact hend.imp (congrArg (c :: ·)) fun h => ⟨congrArg (c :: ·) h.1, h.2⟩

theorem lines_append_newline {l : List Char} (h : '\n' ∉ l) (s : List Char) :
    lines (l ++ '\n' :: s) = (l ++ ['\n']) :: lines s := by
  induction l with
  | nil => rfl
  | cons c l ih =>
    have hc : c ≠ '\n' := fun hc => h (hc ▸ List.mem_cons_self)
    have hl : '\n' ∉ l := fun hl => h (List.mem_cons_of_mem c hl)
    rw [List.cons_append, lines, if_neg hc, ih hl]
    rfl

/-! ### All lines -/

theorem areLines_lines (s : List Char) : AreLines (lines s) s := by
  induction hn : s.length using Nat.strongRecOn generalizing s with
  | ind n ih =>
    by_cases hs : s = []
    · subst hs
      exact .nil
    obtain ⟨l, rest, rfl, hl, hlines, -, hend⟩ := exists_first_line hs
    rw [hlines]
    rcases hend with hend | ⟨hend, rfl⟩
    · have hpos := List.length_pos_iff.mpr hl
      have hrest := ih rest.length (by rw [← hn, List.length_append]; omega) rest rfl
      rw [hend, List.append_assoc]
      exact .cons (newline_notMem_content l) hrest
    · rw [List.append_nil]
      exact .last hl (hend ▸ newline_notMem_content l)

theorem areLines_iff {ls : List (List Char)} {s : List Char} : AreLines ls s ↔ lines s = ls := by
  refine ⟨fun h => ?_, fun h => h ▸ areLines_lines s⟩
  induction h with
  | nil => rfl
  | @last l hl h =>
    obtain ⟨first, rest, rfl, -, hlines, -, hend⟩ := exists_first_line hl
    rcases hend with hend | ⟨-, rfl⟩
    · exact absurd (List.mem_append_left rest (hend ▸ List.mem_append_right _ (.head []))) h
    · rw [hlines, List.append_nil]
      rfl
  | cons h _ ih => rw [lines_append_newline h, ih]

theorem AreLines.flatten {ls : List (List Char)} {s : List Char} (h : AreLines ls s) :
    ls.flatten = s := areLines_iff.mp h ▸ flatten_lines s

/-- Only the last line may do without its newline. -/
theorem AreLines.ends_or_last {above below : List (List Char)} {l s : List Char}
    (h : AreLines (above ++ l :: below) s) : l.getLast? = some '\n' ∨ below = [] := by
  generalize hls : above ++ l :: below = ls at h
  induction h generalizing above with
  | nil => simp at hls
  | last hl h =>
    cases above with
    | nil => exact .inr (List.cons.inj hls).2
    | cons m above => simp at hls
  | cons h hs ih =>
    cases above with
    | nil =>
      obtain ⟨rfl, -⟩ := List.cons.inj hls
      exact .inl (by simp)
    | cons m above => exact ih (List.cons.inj hls).2

/-! ### The line of a place -/

/-- After a newline nothing before it counts for the last line. -/
theorem takeWhile_reverse_append_newline (before mid : List Char) :
    (before ++ '\n' :: mid).reverse.takeWhile (· != '\n') =
      mid.reverse.takeWhile (· != '\n') := by
  rw [List.reverse_append, List.reverse_cons, List.append_assoc, List.takeWhile_append]
  split
  · rename_i hall
    rw [(List.takeWhile_prefix (· != '\n')).eq_of_length hall]
    simp
  · rfl

theorem takeWhile_reverse_of_notMem {before : List Char} (h : '\n' ∉ before) :
    before.reverse.takeWhile (· != '\n') = before.reverse := by
  rw [List.takeWhile_eq_self_iff]
  intro c hc
  simpa using ne_of_mem_of_not_mem (List.mem_reverse.mp hc) h

/-- Where a text is not at its end, a line goes on.  As many lines are above it as newlines come
before, and it starts after the last of these. -/
theorem AreLines.exists_line_at {ls : List (List Char)} {s before rest : List Char}
    (h : AreLines ls s) (hs : s = before ++ rest) (hrest : rest ≠ []) :
    ∃ above front line below, ls = above ++ (front ++ line) :: below ∧
      above.length = before.count '\n' ∧
      front.length = (before.reverse.takeWhile (· != '\n')).length ∧
      line ≠ [] ∧ line ++ below.flatten = rest := by
  induction h generalizing before with
  | nil => exact absurd (List.append_eq_nil_iff.mp hs.symm).2 hrest
  | @last l hl h =>
    subst hs
    have hno : '\n' ∉ before := fun hm => h (List.mem_append_left rest hm)
    refine ⟨[], before, rest, [], rfl, (List.count_eq_zero.mpr hno).symm, ?_, hrest, by simp⟩
    rw [takeWhile_reverse_of_notMem hno, List.length_reverse]
  | @cons l ls s h hlines ih =>
    have hsplit : before ++ rest = (l ++ ['\n']) ++ s := by simp [← hs]
    -- the place is in the first line, or the text before it goes on after that line
    have hcases : (∃ line, line ≠ [] ∧ l ++ ['\n'] = before ++ line ∧ rest = line ++ s) ∨
        ∃ mid, before = (l ++ ['\n']) ++ mid ∧ s = mid ++ rest := by
      rcases List.append_eq_append_iff.mp hsplit with ⟨line, hline, hwhole⟩ | hlater
      · by_cases hne : line = []
        · subst hne
          exact .inr ⟨[], by simpa using hline.symm, hwhole.symm⟩
        · exact .inl ⟨line, hne, hline, hwhole⟩
      · exact .inr hlater
    rcases hcases with ⟨line, hne, hline, rfl⟩ | ⟨mid, rfl, hmid⟩
    · have hno : '\n' ∉ before := by
        intro hm
        obtain ⟨front, c, rfl⟩ := List.eq_nil_or_concat line |>.resolve_left hne
        rw [List.concat_eq_append, ← List.append_assoc] at hline
        exact h ((List.append_inj' hline rfl).1 ▸ List.mem_append_left front hm)
      refine ⟨[], before, line, ls, by rw [hline]; rfl, (List.count_eq_zero.mpr hno).symm, ?_, hne,
        by rw [hlines.flatten]⟩
      rw [takeWhile_reverse_of_notMem hno, List.length_reverse]
    · obtain ⟨above, front, line, below, rfl, habove, hfront, hne, hwhole⟩ := ih hmid
      refine ⟨(l ++ ['\n']) :: above, front, line, below, rfl, ?_, ?_, hne, hwhole⟩
      · rw [List.length_cons, habove]
        simp [List.count_append, List.count_eq_zero.mpr h]
      · rw [hfront, List.append_assoc, List.singleton_append, takeWhile_reverse_append_newline]

end WordRole.Text
