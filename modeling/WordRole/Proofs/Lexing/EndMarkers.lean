import WordRole.CodeUnit
import WordRole.Proofs.Lexing.Bodies

/-!
# What follows an end marker

A run that stops at an end marker has not looked beyond its line.  So sources that differ only after
one have the same tokens, the same notices and the same reports (`lex_eq_of_stopsAt`).

* `Context.segments_of_endMarker`: an end marker that is reached is the last segment, whatever
  follows it;
* `segments_eq_of_stopsAt`: a run that stops at one is the same before any other text.
-/

namespace WordRole

open Lexeme

/-! ### Texts that follow a word on other lines -/

namespace Text

variable {x y : List Char}

theorem content_append_of_head? (hx : ∀ c ∈ x.head?, c = '\n') (w : List Char) :
    content (w ++ x) = content w := by
  unfold content
  induction w with
  | nil =>
    cases x with
    | nil => rfl
    | cons c x =>
      obtain rfl := hx c rfl
      rfl
  | cons c w ih => rw [List.cons_append, List.takeWhile_cons, List.takeWhile_cons, ih]

/-- After a word of two characters or more, texts start alike that have nothing on its line. -/
theorem sameStart_of_head? (hx : ∀ c ∈ x.head?, c = '\n') (hy : ∀ c ∈ y.head?, c = '\n')
    {c d : Char} (hc : c ≠ ':') (w : List Char) :
    SameStart (c :: d :: w ++ x) (c :: d :: w ++ y) :=
  ⟨⟨c, d, w ++ x, w ++ y, rfl, rfl, fun h => absurd h hc⟩, by
    rw [content_append_of_head? hx, content_append_of_head? hy]⟩

end Text

/-- A name that ends its line is the whole name there. -/
theorem Lexeme.qualifiedName_of_head? {q x : List Char} (hq : IsQualifiedName q)
    (hx : ∀ c ∈ x.head?, c = '\n') : qualifiedName (q ++ x) = ⟨q, x⟩ := by
  have hnothing : qualifiedName x = .nothing x := by
    cases x with
    | nil => rfl
    | cons c x =>
      obtain rfl := hx c rfl
      simp [qualifiedName, show isNameChar '\n' = false by decide]
  rw [qualifiedName_append hq, hnothing]
  simp [Text.Cut.after, Text.Cut.nothing]

/-! ### End markers -/

theorem Vocabulary.exists_of_mem_endMarkers {word : String} (h : word ∈ endMarkers) :
    ∃ w, word.toList = '_' :: '_' :: w ∧ ∀ c ∈ w, isNameChar c = true := by
  simp only [endMarkers, List.mem_cons, List.not_mem_nil, or_false] at h
  rcases h with rfl | rfl
  · exact ⟨"END__".toList, rfl, List.all_eq_true.mp (by decide)⟩
  · exact ⟨"DATA__".toList, rfl, List.all_eq_true.mp (by decide)⟩

namespace Context

/-- Where no lines of heredocs are to come, an end marker that ends its line is the last segment,
whatever is on the lines below. -/
theorem segments_of_endMarker {ctx : Context} (hdue : ctx.due = []) {word : String}
    (hword : word ∈ Vocabulary.endMarkers) {x : List Char} (hx : ∀ c ∈ x.head?, c = '\n') :
    let s : Segment := ⟨word.toList, ctx.position, .endMarker⟩
    ctx.segments (word.toList ++ x) = ([s], ctx.after s) := by
  obtain ⟨w, hw, hchars⟩ := Vocabulary.exists_of_mem_endMarkers hword
  have hname : IsQualifiedName word.toList :=
    .name ⟨'_', '_' :: w, hw, by decide, List.forall_mem_cons.mpr ⟨by decide, hchars⟩⟩
  have hcut : ctx.cutWord (word.toList ++ x) = (.endMarker, ⟨word.toList, x⟩) := by
    unfold cutWord
    rw [qualifiedName_of_head? hname hx]
    dsimp only
    rw [String.ofList_toList, if_pos (List.contains_iff_mem.mpr hword)]
  rw [hw, List.cons_append] at hcut ⊢
  have hnext := cut_of_isNameStart hdue (show isNameStart '_' = true by decide) ('_' :: w ++ x)
  rw [hcut] at hnext
  rw [segments]
  dsimp only
  rw [hnext, if_pos rfl]
  rfl

end Context

/-! ### Sources -/

/-- The run over a source reaches a word after some text, and stops there. -/
def StopsAt (source before word : String) : Prop :=
  ∃ ss s, (Context.start.segments source.toList).1 = ss ++ [s] ∧
    Segment.textOf ss = before.toList ∧ s.text = word.toList ∧ s.piece = .endMarker

theorem segments_eq_of_stopsAt {before word after other : String}
    (hword : word ∈ Vocabulary.endMarkers) (hafter : ∀ c ∈ after.toList.head?, c = '\n')
    (hother : ∀ c ∈ other.toList.head?, c = '\n')
    (h : StopsAt (before ++ word ++ after) before word) :
    Context.start.segments (before ++ word ++ other).toList =
      Context.start.segments (before ++ word ++ after).toList := by
  obtain ⟨ss, s, hsegments, hbefore, -, hpiece⟩ := h
  -- no lines of heredocs are to come where the marker is reached
  have hdue : (Context.start.afterAll ss).due = [] := by
    by_contra hdue
    obtain ⟨bodies, hbodies⟩ := (Context.heredocLines_iff_due hsegments).mpr hdue
    rw [hpiece] at hbodies
    cases hbodies
  have hend := Context.piece_ne_endMarker hsegments
  obtain ⟨w, hw, -⟩ := Vocabulary.exists_of_mem_endMarkers hword
  simp only [String.toList_append, List.append_assoc, ← hbefore] at hsegments ⊢
  -- both runs come to the marker in one way
  have hrun : ∀ x : List Char, (∀ c ∈ x.head?, c = '\n') →
      Context.start.segments (Segment.textOf ss ++ (word.toList ++ x)) =
        (ss ++ ((Context.start.afterAll ss).segments (word.toList ++ x)).1,
          ((Context.start.afterAll ss).segments (word.toList ++ x)).2) := by
    intro x hx
    refine Context.segments_append ?_ hsegments hend
    rw [hw]
    exact Text.sameStart_of_head? hafter hx (by decide) w
  rw [hrun _ hother, hrun _ hafter, Context.segments_of_endMarker hdue hword hother,
    Context.segments_of_endMarker hdue hword hafter]

/-- **Nothing matters after an end marker.**  If the run over a source stops at an end marker, then
any text that leaves its line as it is may follow it instead: the tokens are the same, the notices
are the same, those of heredocs that wait for their lines included, and so are all reports. -/
theorem lex_eq_of_stopsAt {before word after other : String}
    (hword : word = "__END__" ∨ word = "__DATA__") (hafter : ∀ c ∈ after.toList.head?, c = '\n')
    (hother : ∀ c ∈ other.toList.head?, c = '\n')
    (h : StopsAt (before ++ word ++ after) before word) :
    lex (before ++ word ++ other) = lex (before ++ word ++ after) ∧
      ∀ (name : String) (mode : Mode),
        (CodeUnit.ofSource name (before ++ word ++ other)).report mode =
          (CodeUnit.ofSource name (before ++ word ++ after)).report mode := by
  have hmem : word ∈ Vocabulary.endMarkers := by simpa [Vocabulary.endMarkers] using hword
  have hlex : lex (before ++ word ++ other) = lex (before ++ word ++ after) := by
    unfold lex
    rw [segments_eq_of_stopsAt hmem hafter hother h]
  refine ⟨hlex, fun name mode => ?_⟩
  unfold CodeUnit.ofSource
  rw [hlex]

/-- The lines of a heredoc are not read after an end marker on the line of its own marker. -/
theorem lex_eq_of_stopsAt_pending :
    StopsAt ("f(<<E, 'x'); " ++ "__END__" ++ "") "f(<<E, 'x'); " "__END__" ∧
      lex ("f(<<E, 'x'); " ++ "__END__" ++ "\n'\nE\n") =
        lex ("f(<<E, 'x'); " ++ "__END__" ++ "") := by
  have hstop : StopsAt ("f(<<E, 'x'); " ++ "__END__" ++ "") "f(<<E, 'x'); " "__END__" :=
    ⟨(Context.start.segments "f(<<E, 'x'); __END__".toList).1.dropLast,
      ⟨"__END__".toList, ⟨1, 14⟩, .endMarker⟩, by decide +kernel, by decide +kernel, rfl, rfl⟩
  exact ⟨hstop, (lex_eq_of_stopsAt (.inl rfl) (by simp) (by simp) hstop).1⟩

end WordRole
