import WordRole.Lexing
import WordRole.Proofs.Text.Lines

/-!
# What the segments of a source are

* `Segment.Stands`: what a segment of each kind is, by the segments before it and the text after it;
* `Context.Follows`: what a context knows of the segments before it;
* `Context.stands_cut`, `Context.Follows.after`: the next segment stands where it is cut, and the
  context after it follows it.
-/

namespace WordRole

open Text (Cut)
open Lexeme

/-! ### Segments in their places -/

/-- The characters with the Unicode property White_Space. -/
def Text.IsWhiteSpace (c : Char) : Prop :=
  (0x9 ≤ c.toNat ∧ c.toNat ≤ 0xD) ∨ c.toNat = 0x20 ∨ c.toNat = 0x85 ∨ c.toNat = 0xA0 ∨
    c.toNat = 0x1680 ∨ (0x2000 ≤ c.toNat ∧ c.toNat ≤ 0x200A) ∨ c.toNat = 0x2028 ∨
    c.toNat = 0x2029 ∨ c.toNat = 0x202F ∨ c.toNat = 0x205F ∨ c.toNat = 0x3000

theorem Text.isBlank_iff {c : Char} : isBlank c = true ↔ IsWhiteSpace c := by
  simp only [isBlank, blankRanges, IsWhiteSpace, List.any_cons, List.any_nil, Bool.or_eq_true,
    Bool.and_eq_true, decide_eq_true_eq, Bool.or_false]
  omega

theorem Text.isBlank_eq_false_iff {c : Char} : isBlank c = false ↔ ¬IsWhiteSpace c := by
  rw [← isBlank_iff, Bool.not_eq_true]

/-- What is left of a text where characters of a class are taken off its front. -/
theorem Text.dropWhile_eq_iff {p : Char → Bool} {cs rest : List Char} :
    cs.dropWhile p = rest ↔
      ∃ front, cs = front ++ rest ∧ (∀ c ∈ front, p c = true) ∧ ∀ c ∈ rest.head?, p c = false := by
  constructor
  · rintro rfl
    refine ⟨cs.takeWhile p, List.takeWhile_append_dropWhile.symm,
      fun c hc => List.all_eq_true.mp List.all_takeWhile c hc, fun c hc => ?_⟩
    have hd := List.head?_dropWhile_not p cs
    rwa [Option.mem_def.mp hc] at hd
  · rintro ⟨front, rfl, hfront, hrest⟩
    rw [List.dropWhile_append_of_pos hfront]
    cases rest with
    | nil => rfl
    | cons c rest => rw [List.dropWhile_cons_of_neg (by simp [hrest c rfl])]

namespace Heredoc

/-- Whether a line is the terminator of a heredoc.  If lines are indented, white space may stand
before it, and no more of that is its own. -/
def Ends (h : Heredoc) (line : List Char) : Prop :=
  if h.indented then
    ∃ indent, line.takeWhile (· != '\n') = indent ++ h.terminator ∧
      (∀ c ∈ indent, Text.IsWhiteSpace c) ∧ ∀ c ∈ h.terminator.head?, ¬Text.IsWhiteSpace c
  else line.takeWhile (· != '\n') = h.terminator

theorem isClosedBy_iff {h : Heredoc} {line : List Char} :
    h.isClosedBy line = true ↔ h.Ends line := by
  unfold isClosedBy Ends Text.trimStart
  by_cases hindented : h.indented = true
  · rw [if_pos hindented, if_pos hindented, beq_iff_eq, Text.dropWhile_eq_iff]
    simp only [Text.isBlank_iff, Text.isBlank_eq_false_iff]
    rfl
  · rw [if_neg hindented, if_neg hindented, beq_iff_eq]
    rfl

end Heredoc

namespace Segment

def textOf (ss : List Segment) : List Char := ss.flatMap (·.text)

/-- the heredocs that are announced and not yet read after a segment -/
def announce (hs : List Heredoc) (s : Segment) : List Heredoc :=
  match s.piece with
  | .heredoc h => hs ++ [h]
  | .heredocLines _ => []
  | _ => hs

/-- the heredocs that segments announce and do not read -/
def pending (ss : List Segment) : List Heredoc := ss.foldl announce []

@[simp] theorem textOf_nil : textOf [] = [] := rfl

@[simp] theorem textOf_cons (s : Segment) (ss : List Segment) :
    textOf (s :: ss) = s.text ++ textOf ss := rfl

@[simp] theorem textOf_append (ss us : List Segment) :
    textOf (ss ++ us) = textOf ss ++ textOf us := List.flatMap_append

@[simp] theorem pending_concat (ss : List Segment) (s : Segment) :
    pending (ss ++ [s]) = announce (pending ss) s := by
  simp [pending]

/-- Lines that run through the first one that starts with a mark, or to the end of the text. -/
def Through (mark text after : List Char) : Prop :=
  ∃ ls l more, Text.AreLines (ls ++ l :: more) (text ++ after) ∧ text = ls.flatten ++ l ∧
    (∀ m ∈ ls, ¬mark <+: m) ∧ (mark <+: l ∨ after = [])

/-- Lines that hold bodies one after the other, each up to its terminator or to the end of the
text. -/
def Holds (bodies : List Heredoc.Body) (text after : List Char) : Prop :=
  (∃ more, Text.AreLines ((bodies.flatMap fun b => b.lines ++ b.closing.toList) ++ more)
      (text ++ after)) ∧
    text = (bodies.flatMap fun b => b.lines ++ b.closing.toList).flatten ∧
    ∀ b ∈ bodies, (∀ l ∈ b.lines, ¬b.heredoc.Ends l) ∧ (∀ l ∈ b.closing, b.heredoc.Ends l) ∧
      (b.closing = none → after = [])

/-- **Segments.**  What a segment of each kind is, between the segments before it and the text after
it. -/
def Stands (before : List Segment) (s : Segment) (after : List Char) : Prop :=
  match s.piece with
  | .blank => ∃ c, s.text = [c] ∧ Text.IsWhiteSpace c
  | .comment => (∃ cs, s.text = '#' :: cs ∧ '\n' ∉ cs) ∧ ∀ c ∈ after.head?, c = '\n'
  | .pod =>
    s.position.column = 1 ∧ (∃ c cs, s.text = '=' :: c :: cs ∧ c.isAlpha = true) ∧
      Through ['=', 'c', 'u', 't'] s.text after
  | .heredocLines bodies =>
    s.text ≠ [] ∧ (textOf before).getLast? = some '\n' ∧ pending before ≠ [] ∧
      bodies.map (·.heredoc) = pending before ∧ Holds bodies s.text after
  | .stray c => s.text = [c] ∧ ¬Text.IsWhiteSpace c ∧ (c.toNat < 0x20 ∨ 0x7E < c.toNat)
  | .token _ | .literal _ | .heredoc _ => s.text ≠ []
  | .endMarker =>
    (s.text = "__END__".toList ∨ s.text = "__DATA__".toList) ∧
      ∀ c ∈ after.head?, c.isAlphanum = false ∧ c ≠ '_'

end Segment

/-! ### Scanners -/

/-- Up to the first line that passes a test, and at it. -/
theorem Text.until_first (p : List Char → Bool) (ls : List (List Char)) :
    (∀ m ∈ ls.takeWhile fun l => !p l, p m = false) ∧
      ∀ l more, (ls.dropWhile fun l => !p l) = l :: more → p l = true := by
  constructor
  · intro m hm
    simpa using List.all_eq_true.mp List.all_takeWhile m hm
  · intro l more hd
    have := List.head?_dropWhile_not (fun l => !p l) ls
    simpa [hd] using this

theorem Text.Cut.through_through (mark : List Char) {s : List Char} (hs : s ≠ []) :
    Segment.Through mark (through (mark.isPrefixOf ·) s).taken
      (through (mark.isPrefixOf ·) s).rest := by
  have hl := List.takeWhile_append_dropWhile (p := fun l => !mark.isPrefixOf l) (l := lines s)
  obtain ⟨hp, hfirst⟩ := until_first (mark.isPrefixOf ·) (lines s)
  have hno : ∀ {m}, mark.isPrefixOf m = false → ¬mark <+: m := fun hm hmark =>
    Bool.false_ne_true (hm.symm.trans (List.isPrefixOf_iff_prefix.mpr hmark))
  have hwhole : (through (mark.isPrefixOf ·) s).taken ++ (through (mark.isPrefixOf ·) s).rest =
      s := whole_through _ s
  unfold Segment.Through
  rw [hwhole]
  simp only [areLines_iff]
  unfold through
  dsimp only
  cases hd : (lines s).dropWhile fun l => !mark.isPrefixOf l with
  | nil =>
    -- no line starts with the mark, and the last one ends the text
    rw [hd, List.append_nil] at hl
    rw [hl] at hp ⊢
    obtain ⟨c, cs, rfl⟩ := List.exists_cons_of_ne_nil hs
    rcases List.eq_nil_or_concat (lines (c :: cs)) with hn | ⟨ls, l, hn⟩
    · exact absurd hn (lines_cons_ne_nil c cs)
    · rw [List.concat_eq_append] at hn
      exact ⟨ls, l, [], hn, by simp [hn], fun m hm => hno (hp m (by simp [hn, hm])), .inr rfl⟩
  | cons l ls =>
    rw [hd] at hl
    refine ⟨_, l, ls, hl.symm, rfl, fun m hm => hno (hp m hm), .inl ?_⟩
    exact List.isPrefixOf_iff_prefix.mp (hfirst l ls hd)

theorem Lexeme.exists_taken_pod {s : List Char} (h : startsPod s = true) :
    ∃ c cs, (pod s).taken = '=' :: c :: cs ∧ c.isAlpha = true := by
  obtain ⟨c, cs, rfl, hc⟩ : ∃ c cs, s = '=' :: c :: cs ∧ c.isAlpha = true := by
    unfold startsPod at h
    split at h
    · exact ⟨_, _, rfl, h⟩
    · cases h
  have hn : c ≠ '\n' := by
    rintro rfl
    revert hc
    decide
  -- the letter is on the first line, and that one is taken whatever it is
  obtain ⟨l, more, hl⟩ : ∃ l more, Text.lines ('=' :: c :: cs) = ('=' :: c :: l) :: more := by
    simp only [Text.lines, if_neg hn]
    cases Text.lines cs <;> simp
  obtain ⟨ls, m, after, hlines, htext, -, -⟩ :=
    Cut.through_through podEnd (s := '=' :: c :: cs) (by simp)
  change Text.AreLines _ (pod ('=' :: c :: cs)).whole at hlines
  rw [whole_pod, Text.areLines_iff, hl] at hlines
  cases ls with
  | nil =>
    obtain ⟨rfl, -⟩ := List.cons.inj hlines
    exact ⟨c, l, htext, hc⟩
  | cons k ls =>
    obtain ⟨rfl, -⟩ := List.cons.inj hlines
    exact ⟨c, _, htext, hc⟩

theorem Lexeme.head?_rest_qualifiedName (s : List Char) :
    ∀ c ∈ (qualifiedName s).rest.head?, isNameChar c = false := by
  fun_induction qualifiedName s with
  | case1 c cs h ih => exact ih
  | case2 c cs h =>
    rintro d ⟨⟩
    decide
  | case3 c cs _ h ih => exact ih
  | case4 c cs _ h =>
    rintro d ⟨⟩
    simpa using h
  | case5 => rintro d ⟨⟩

theorem Vocabulary.eq_of_isEndMarker {word : List Char}
    (h : endMarkers.contains (String.ofList word) = true) :
    word = "__END__".toList ∨ word = "__DATA__".toList := by
  have hmem : String.ofList word = "__END__" ∨ String.ofList word = "__DATA__" := by
    simpa [endMarkers] using h
  refine hmem.imp (fun hw => ?_) fun hw => ?_ <;> rw [← hw, String.toList_ofList]

theorem Symbol.exists_of_isPrintable {c : Char} (hl : 0x20 ≤ c.toNat) (hu : c.toNat ≤ 0x7E) :
    Text.isBlank c = true ∨ c = '#' ∨ Context.quotes.contains c = true ∨ isNameStart c = true ∨
      c.isDigit = true ∨ [c] ∈ table := by
  have h : ∀ n < 0x5F, let c := Char.ofNat (0x20 + n)
      Text.isBlank c = true ∨ c = '#' ∨ Context.quotes.contains c = true ∨ isNameStart c = true ∨
        c.isDigit = true ∨ [c] ∈ table := by
    decide
  have hc := h (c.toNat - 0x20) (by omega)
  rwa [show 0x20 + (c.toNat - 0x20) = c.toNat by omega, Char.ofNat_toNat] at hc

namespace Heredoc

theorem heredoc_read (h : Heredoc) (ls : List (List Char)) : (h.read ls).1.heredoc = h := by
  unfold read
  dsimp only
  split <;> rfl

/-- Lines are read up to the terminator, or to the last one. -/
theorem closes_read (h : Heredoc) (ls : List (List Char)) :
    (∀ l ∈ (h.read ls).1.lines, h.isClosedBy l = false) ∧
    (∀ l ∈ (h.read ls).1.closing, h.isClosedBy l = true) ∧
    ((h.read ls).1.closing = none → (h.read ls).2 = []) := by
  obtain ⟨hp, hfirst⟩ := Text.until_first h.isClosedBy ls
  unfold read
  dsimp only
  cases hd : ls.dropWhile fun l => !h.isClosedBy l with
  | nil => exact ⟨hp, by simp, fun _ => rfl⟩
  | cons l more => exact ⟨hp, by simpa using hfirst l more hd, by simp⟩

theorem heredoc_readAll (hs : List Heredoc) (ls : List (List Char)) :
    (readAll hs ls).1.map (·.heredoc) = hs := by
  induction hs generalizing ls with
  | nil => rfl
  | cons h hs ih => simp [readAll, heredoc_read, ih]

theorem readAll_nil (hs : List Heredoc) : (readAll hs []).2 = [] := by
  induction hs with
  | nil => rfl
  | cons h hs ih => exact ih

theorem closes_readAll (hs : List Heredoc) (ls : List (List Char)) :
    ∀ b ∈ (readAll hs ls).1, (∀ l ∈ b.lines, b.heredoc.isClosedBy l = false) ∧
      (∀ l ∈ b.closing, b.heredoc.isClosedBy l = true) ∧
      (b.closing = none → (readAll hs ls).2 = []) := by
  induction hs generalizing ls with
  | nil => simp [readAll]
  | cons h hs ih =>
    intro b hb
    rw [readAll] at hb ⊢
    rcases List.mem_cons.mp hb with rfl | hb
    · obtain ⟨hl, hc, hn⟩ := h.closes_read ls
      rw [heredoc_read]
      refine ⟨hl, hc, fun hnone => ?_⟩
      -- nothing is left for the heredocs after it
      rw [hn hnone]
      exact readAll_nil hs
    · exact ih (h.read ls).2 b hb

theorem holds_bodies (hs : List Heredoc) (s : List Char) :
    Segment.Holds (bodies hs s).1 (bodies hs s).2.taken (bodies hs s).2.rest := by
  refine ⟨⟨(readAll hs (Text.lines s)).2, ?_⟩, rfl, ?_⟩
  · have hw : (bodies hs s).2.taken ++ (bodies hs s).2.rest = s := whole_bodies hs s
    rw [hw, Text.areLines_iff]
    exact (source_readAll hs (Text.lines s)).symm
  · intro b hb
    obtain ⟨hl, hc, hn⟩ := closes_readAll hs (Text.lines s) b hb
    refine ⟨fun l hm hends => ?_, fun l hm => isClosedBy_iff.mp (hc l hm), fun hnone => ?_⟩
    · have hclosed := isClosedBy_iff.mpr hends
      rw [hl l hm] at hclosed
      cases hclosed
    · exact congrArg List.flatten (hn hnone)

end Heredoc

/-! ### The next segment -/

namespace Context

theorem stands_of_isSome_kind? {s : Segment} (h : s.kind?.isSome) (hn : s.text ≠ [])
    (before : List Segment) (after : List Char) : s.Stands before after := by
  obtain ⟨text, position, piece⟩ := s
  cases piece
  case token | literal | heredoc => exact hn
  all_goals cases h

theorem stands_cutWord (ctx : Context) {c : Char} (cs : List Char) (h : isNameStart c = true)
    (before : List Segment) :
    (ctx.segment (ctx.cutWord (c :: cs))).Stands before (ctx.cutWord (c :: cs)).2.rest := by
  have hn := (ctx.whole_cutWord cs h).2
  revert hn
  unfold cutWord
  dsimp only
  split
  · rename_i hm
    refine fun _ => ⟨Vocabulary.eq_of_isEndMarker hm, fun d hd => ?_⟩
    have hd := head?_rest_qualifiedName (c :: cs) d hd
    simpa [isNameChar_eq] using hd
  · split
    · split <;> exact fun hn => stands_of_isSome_kind? rfl hn _ _
    · exact fun hn => stands_of_isSome_kind? rfl hn _ _

theorem stands_cutSymbol (ctx : Context) {c : Char} (cs : List Char)
    (hb : Text.isBlank c = false) (hc : c ≠ '#') (hq : Context.quotes.contains c = false)
    (hn : isNameStart c = false) (hd : c.isDigit = false) (before : List Segment) :
    (ctx.segment (ctx.cutSymbol c cs)).Stands before (ctx.cutSymbol c cs).2.rest := by
  have ht := (ctx.whole_cutSymbol c cs).2
  revert ht
  unfold cutSymbol
  split
  · exact fun ht => stands_of_isSome_kind? rfl ht _ _
  · split
    · exact fun ht => stands_of_isSome_kind? rfl ht _ _
    · rename_i hs
      have hp : ¬(0x20 ≤ c.toNat ∧ c.toNat ≤ 0x7E) := by
        rintro ⟨hl, hu⟩
        rcases Symbol.exists_of_isPrintable hl hu with h | h | h | h | h | h
        · rw [hb] at h; cases h
        · exact hc h
        · rw [hq] at h; cases h
        · rw [hn] at h; cases h
        · rw [hd] at h; cases h
        · have := List.find?_eq_none.mp hs [c] h
          simp at this
      exact fun _ => ⟨rfl, Text.isBlank_eq_false_iff.mp hb, by omega⟩

/-- What a context knows of the segments before it: where they end, and which heredocs wait for
their lines.  These start here only if a newline is the last thing before. -/
structure Follows (ctx : Context) (before : List Segment) : Prop where
  position : ctx.position = Position.start.afterAll (Segment.textOf before)
  pending : ctx.due ++ ctx.announced = Segment.pending before
  due : ctx.due ≠ [] → ctx.announced = [] ∧ (Segment.textOf before).getLast? = some '\n'

theorem follows_start : start.Follows [] := ⟨rfl, rfl, fun h => absurd rfl h⟩

theorem stands_cut {ctx : Context} {before : List Segment} (h : ctx.Follows before) (c : Char)
    (cs : List Char) :
    (ctx.segment (ctx.cut c cs)).Stands before (ctx.cut c cs).2.rest := by
  unfold cut
  split
  · rename_i hdue
    obtain ⟨ha, hl⟩ := h.due hdue
    have hp := h.pending
    rw [ha, List.append_nil] at hp
    refine ⟨Heredoc.taken_bodies_ne_nil hdue c cs, hl, hp ▸ hdue, ?_,
      Heredoc.holds_bodies ctx.due (c :: cs)⟩
    rw [← hp]
    exact Heredoc.heredoc_readAll ctx.due _
  split
  · rename_i hb
    exact ⟨c, rfl, Text.isBlank_iff.mp hb⟩
  rename_i hb
  split
  · rename_i hp
    simp only [Bool.and_eq_true, decide_eq_true_eq] at hp
    exact ⟨hp.1, exists_taken_pod hp.2, Cut.through_through podEnd (List.cons_ne_nil c cs)⟩
  split
  · rename_i hc
    subst hc
    refine ⟨⟨cs.takeWhile (· != '\n'), by simp [segment, Cut.span], ?_⟩, ?_⟩
    · intro hm
      simpa using List.all_eq_true.mp List.all_takeWhile _ hm
    · intro c hc
      have hd := List.head?_dropWhile_not (· != '\n') ('#' :: cs)
      rw [show (List.dropWhile (· != '\n') ('#' :: cs)).head? = some c from hc] at hd
      simpa using hd
  rename_i hc
  split
  · exact stands_of_isSome_kind? rfl (by simp [segment]) _ _
  rename_i hq
  split
  · exact stands_of_isSome_kind? rfl (taken_sigiledName_ne_nil c cs) _ _
  split
  · rename_i hn
    exact ctx.stands_cutWord cs hn before
  rename_i hn
  split
  · rename_i hd
    exact stands_of_isSome_kind? rfl (taken_number_ne_nil cs hd) _ _
  rename_i hd
  split
  · exact stands_of_isSome_kind? rfl (by simp [segment, cutPattern]) _ _
  · exact ctx.stands_cutSymbol cs (by simpa using hb) hc (by simpa using hq) (by simpa using hn)
      (by simpa using hd) before

theorem heredocLines_cut_iff (ctx : Context) (c : Char) (cs : List Char) :
    (∃ bodies, (ctx.cut c cs).1 = .heredocLines bodies) ↔ ctx.due ≠ [] := by
  unfold cut
  by_cases hdue : ctx.due = []
  · rw [if_neg (by simp [hdue])]
    refine ⟨?_, fun h => absurd hdue h⟩
    unfold cutWord cutSymbol cutPattern
    rintro ⟨bodies, h⟩
    revert h
    dsimp only
    repeat' split
    all_goals exact fun h => nomatch h
  · simp [hdue]

/-- A context that follows the segments before it goes on to follow the next one. -/
theorem Follows.after {ctx : Context} {before : List Segment} (h : ctx.Follows before) (c : Char)
    (cs : List Char) :
    (ctx.after (ctx.segment (ctx.cut c cs))).Follows
      (before ++ [ctx.segment (ctx.cut c cs)]) := by
  have hd : (∃ bodies, (ctx.segment (ctx.cut c cs)).piece = .heredocLines bodies) ↔
      ctx.due ≠ [] := ctx.heredocLines_cut_iff c cs
  obtain ⟨hposition, hpending, hdue⟩ := h
  generalize ctx.segment (ctx.cut c cs) = s at hd ⊢
  have hp : (ctx.after s).position = Position.start.afterAll (Segment.textOf (before ++ [s])) := by
    simp [Context.after, hposition, Position.afterAll_append]
  by_cases hs : ∃ bodies, s.piece = .heredocLines bodies
  · -- all heredocs are read at once
    have ha := (hdue (hd.mp hs)).1
    obtain ⟨bodies, hs⟩ := hs
    exact ⟨hp, by simp [Context.after, hs, ha, Segment.announce],
      fun h => absurd (by simp [Context.after, hs]) h⟩
  · have hnil : ctx.due = [] := by simpa using mt hd.mpr hs
    rw [hnil, List.nil_append] at hpending
    refine ⟨hp, ?_, ?_⟩
    · rw [Segment.pending_concat, ← hpending]
      unfold Context.after Segment.announce
      cases hpiece : s.piece with
      | heredocLines bodies => exact absurd ⟨bodies, hpiece⟩ hs
      | blank =>
        dsimp only
        by_cases hn : s.text = ['\n'] <;> simp [hn, hnil]
      | _ => simp [hnil]
    · unfold Context.after
      cases hpiece : s.piece with
      | blank =>
        by_cases hn : s.text = ['\n']
        · simp [hn]
        · simp [hn, hnil]
      | _ => simp [hnil]

end Context

end WordRole
