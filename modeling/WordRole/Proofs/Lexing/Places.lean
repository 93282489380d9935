import Mathlib.Data.List.Forall2
import WordRole.Proofs.Lexing.Segmentation

/-!
# Where the tokens of a source stand

Each token stands where a stretch of the source starts that it begins with (`exists_of_mem_tokens`),
and the tokens follow each other in the source (`pairwise_tokens`).  Both are seen from the segments
that the source is cut into, of which no one is empty.
-/

namespace WordRole

theorem map_eq_map_of_forall₂ {α β γ : Type} {f : α → γ} {g : β → γ} {as : List α} {bs : List β}
    (h : List.Forall₂ (fun a b => f a = g b) as bs) : as.map f = bs.map g := by
  rwa [← List.forall₂_eq_eq_eq, List.forall₂_map_left_iff, List.forall₂_map_right_iff]

/-! ### Reading order -/

namespace Position

theorem Precedes.trans {p q r : Position} (hp : p.Precedes q) (hq : q.Precedes r) :
    p.Precedes r := by
  unfold Precedes at *
  omega

theorem Precedes.asymm {p q : Position} (h : p.Precedes q) : ¬q.Precedes p := by
  unfold Precedes at *
  omega

theorem precedes_after (p : Position) (c : Char) : p.Precedes (p.after c) := by
  by_cases hc : c = '\n'
  · subst hc
    exact .inl (Nat.lt_succ_self _)
  · rw [after_of_ne p hc]
    exact .inr ⟨rfl, Nat.lt_succ_self _⟩

theorem precedes_afterAll (p : Position) {cs : List Char} (h : cs ≠ []) :
    p.Precedes (p.afterAll cs) := by
  induction cs generalizing p with
  | nil => exact absurd rfl h
  | cons c cs ih =>
    rw [afterAll_cons]
    rcases cs with _ | ⟨d, ds⟩
    · exact p.precedes_after c
    · exact (p.precedes_after c).trans (ih (p.after c) (List.cons_ne_nil d ds))

/-- Lines and columns count characters, at most one by one. -/
theorem bounds_afterAll (cs : List Char) :
    let p := start.afterAll cs
    1 ≤ p.line ∧ 1 ≤ p.column ∧ p.line ≤ cs.length + 1 ∧ p.column ≤ cs.length + 1 := by
  have hline := List.count_le_length (a := '\n') (l := cs)
  have hcolumn := (List.takeWhile_sublist (· != '\n') (l := cs.reverse)).length_le
  rw [List.length_reverse] at hcolumn
  rw [afterAll_start]
  dsimp only
  omega

end Position

/-! ### Segments -/

namespace Segment

theorem Stands.text_ne_nil {before : List Segment} {s : Segment} {after : List Char}
    (h : s.Stands before after) : s.text ≠ [] := by
  obtain ⟨text, position, piece⟩ := s
  cases piece with
  | blank =>
    obtain ⟨c, hc, -⟩ := h
    exact hc ▸ List.cons_ne_nil _ _
  | comment =>
    obtain ⟨⟨cs, hc, -⟩, -⟩ := h
    exact hc ▸ List.cons_ne_nil _ _
  | pod =>
    obtain ⟨-, ⟨c, cs, hc, -⟩, -⟩ := h
    exact hc ▸ List.cons_ne_nil _ _
  | heredocLines bodies => exact h.1
  | stray c => exact h.1 ▸ List.cons_ne_nil _ _
  | token _ | literal _ | heredoc _ => exact h
  | endMarker =>
    rcases h.1 with ht | ht <;> exact ht ▸ List.cons_ne_nil _ _

/-- Segments that follow each other in a text stand in reading order. -/
theorem pairwise_precedes {ss : List Segment} {p : Position}
    (h : ∀ before s after, ss = before ++ s :: after →
      s.text ≠ [] ∧ s.position = p.afterAll (textOf before)) :
    ss.Pairwise fun s u => s.position.Precedes u.position := by
  induction ss generalizing p with
  | nil => exact .nil
  | cons s ss ih =>
    obtain ⟨htext, hposition⟩ := h [] s ss rfl
    have hlater : ∀ before u after, ss = before ++ u :: after →
        u.text ≠ [] ∧ u.position = (p.afterAll s.text).afterAll (textOf before) := by
      rintro before u after rfl
      have := h (s :: before) u after rfl
      rwa [textOf_cons, Position.afterAll_append] at this
    refine .cons (fun u hu => ?_) (ih hlater)
    obtain ⟨before, after, hss⟩ := List.append_of_mem hu
    rw [(hlater before u after hss).2, hposition, ← Position.afterAll_append]
    exact p.precedes_afterAll (by simp [htext])

/-! ### Tokens -/

/-- A token has the kind, the place and the text of a segment; only to the marker of a heredoc some
lines are added. -/
structure Shows (s : Segment) (t : Token) : Prop where
  kind : s.kind? = some t.kind
  position : t.position = s.position
  text : t.text.toList = s.text ∨
    ∃ h b, s.piece = .heredoc h ∧ t.text.toList = s.text ++ Heredoc.Body.text b

theorem Shows.begins {s : Segment} {t : Token} (h : s.Shows t) : s.text <+: t.text.toList := by
  rcases h.text with ht | ⟨heredoc, b, -, ht⟩
  · exact ht ▸ List.prefix_rfl
  · exact ht ▸ List.prefix_append s.text _

theorem forall₂_shows (bodies : List Heredoc.Body) (ss : List Segment) :
    List.Forall₂ Shows (ss.filter (·.kind?.isSome)) (tokens bodies ss) := by
  induction ss generalizing bodies with
  | nil => exact .nil
  | cons s ss ih =>
    obtain ⟨text, position, piece⟩ := s
    cases piece with
    | heredoc h =>
      cases bodies with
      | nil => exact .cons ⟨rfl, rfl, .inl (by simp)⟩ (ih [])
      | cons b bodies => exact .cons ⟨rfl, rfl, .inr ⟨h, b, rfl, by simp⟩⟩ (ih bodies)
    | token kind => exact .cons ⟨rfl, rfl, .inl (by simp)⟩ (ih bodies)
    | literal closed => exact .cons ⟨rfl, rfl, .inl (by simp)⟩ (ih bodies)
    | _ => exact ih bodies

end Segment

/-! ### Sources -/

/-- A segment of a source stands where the text before it ends, and takes something. -/
theorem Context.place_of_segments {cs : List Char} {before : List Segment} {s : Segment}
    {after : List Segment} (h : (start.segments cs).1 = before ++ s :: after) :
    s.text ≠ [] ∧ s.position = Position.start.afterAll (Segment.textOf before) ∧
      ∃ rest, cs = Segment.textOf before ++ (s.text ++ rest) := by
  obtain ⟨rest, hwhole, hstand, -, -⟩ := segments_stand follows_start cs
  obtain ⟨hs, hposition, -⟩ := hstand before s after h
  refine ⟨hs.text_ne_nil, hposition, Segment.textOf after ++ rest, ?_⟩
  rw [← hwhole, h]
  simp

namespace Lexed

theorem forall₂_shows (content : String) : List.Forall₂ Segment.Shows
    ((Context.start.segments content.toList).1.filter (·.kind?.isSome)) (lex content).tokens :=
  Segment.forall₂_shows _ _

/-- Every token of a source is that of one of its segments. -/
theorem exists_segment_of_mem_tokens {content : String} {t : Token}
    (h : t ∈ (lex content).tokens) :
    ∃ before s after, (Context.start.segments content.toList).1 = before ++ s :: after ∧
      s.Shows t := by
  have hshows := forall₂_shows content
  obtain ⟨i, hi, rfl⟩ := List.getElem_of_mem h
  have hlt := hshows.length_eq ▸ hi
  obtain ⟨before, after, hsplit⟩ :=
    List.append_of_mem (List.mem_filter.mp (List.get_mem _ ⟨i, hlt⟩)).1
  exact ⟨before, _, after, hsplit, hshows.get hlt hi⟩

/-- A token stands where a stretch of the source starts that it begins with. -/
theorem exists_of_mem_tokens {content : String} {t : Token} (h : t ∈ (lex content).tokens) :
    ∃ before text after, content.toList = before ++ (text ++ after) ∧ text ≠ [] ∧
      text <+: t.text.toList ∧ t.position = Position.start.afterAll before := by
  obtain ⟨before, s, after, hsplit, hs⟩ := exists_segment_of_mem_tokens h
  obtain ⟨htext, hposition, rest, hwhole⟩ := Context.place_of_segments hsplit
  exact ⟨_, _, rest, hwhole, htext, hs.begins, hs.position.trans hposition⟩

/-- The tokens of a source follow each other. -/
theorem pairwise_tokens (content : String) :
    (lex content).tokens.Pairwise fun t u => t.position.Precedes u.position := by
  have hsegments : (Context.start.segments content.toList).1.Pairwise
      fun s u => s.position.Precedes u.position :=
    Segment.pairwise_precedes fun before s after h =>
      ⟨(Context.place_of_segments h).1, (Context.place_of_segments h).2.1⟩
  have hpositions : (lex content).tokens.map (·.position) =
      ((Context.start.segments content.toList).1.filter (·.kind?.isSome)).map (·.position) :=
    map_eq_map_of_forall₂ ((forall₂_shows content).flip.imp fun t s hb => hb.position)
  rw [← List.pairwise_map, hpositions, List.pairwise_map]
  exact hsegments.filter _

end Lexed

end WordRole
