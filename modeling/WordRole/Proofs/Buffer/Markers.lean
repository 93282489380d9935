import WordRole.Proofs.Buffer.Machine
import WordRole.Proofs.Lexing.Bodies

/-!
# The markers that heredocs wait at

The index that is saved with a heredoc is that of its marker among the tokens, whatever has been
lexed since, and nothing has been added to the marker before the lines are read.

* `exists_of_getElem?_markers`: where the marker of a heredoc stands;
* `appendBody?_tokens`: a body is added to its own marker;
* `State.readBodies_of_before`: the lines of all heredocs that wait are read without failing.
-/

namespace WordRole

open Text (Cut)

/-! ### Markers on their own -/

namespace Heredoc

/-- A tag is read the same from its own text. -/
theorem tag?_taken {s tag : List Char} {cut : Cut} (h : tag? s = some (tag, cut)) :
    tag? cut.taken = some (tag, ⟨cut.taken, []⟩) := by
  cases s with
  | nil => cases h
  | cons c cs =>
    by_cases hquote : (decide (c = '"') || decide (c = '\'')) = true
    · obtain ⟨rest, rfl, htag⟩ := exists_of_tag?_of_quote hquote h
      rw [tag?_of_quote hquote htag] at h
      obtain ⟨-, rfl⟩ := Prod.mk.inj (Option.some.inj h)
      simpa using tag?_of_quote hquote htag []
    · rw [tag?, if_neg hquote] at h
      split at h
      · rename_i hname
        obtain ⟨rfl, rfl⟩ := Prod.mk.inj (Option.some.inj h)
        have htaken : ∀ d ∈ cs.takeWhile isNameChar, isNameChar d = true := fun d hd =>
          List.all_eq_true.mp List.all_takeWhile d hd
        have hfirst := isNameChar_of_isNameStart hname
        simp only [Cut.span, List.takeWhile_cons_of_pos hfirst]
        rw [tag?, if_neg hquote, if_pos hname]
        simp only [Cut.span, List.takeWhile_cons_of_pos hfirst, List.dropWhile_cons_of_pos hfirst,
          List.takeWhile_eq_self_iff.mpr htaken, List.dropWhile_eq_nil_iff.mpr htaken]
      · cases h

/-- A marker is read the same from its own text. -/
theorem marker?_taken {p : Position} {s : List Char} {h : Heredoc} {cut : Cut}
    (hm : marker? p s = some (h, cut)) : marker? p cut.taken = some (h, ⟨cut.taken, []⟩) := by
  unfold marker? at hm
  split at hm
  · obtain ⟨⟨tag, u⟩, htag, he⟩ := Option.map_eq_some_iff.mp hm
    obtain ⟨rfl, rfl⟩ := Prod.mk.inj he
    simp only [Cut.taken_after, List.cons_append, List.nil_append, marker?, tag?_taken htag]
    rfl
  · rename_i cs hplain
    obtain ⟨⟨tag, u⟩, htag, he⟩ := Option.map_eq_some_iff.mp hm
    obtain ⟨rfl, rfl⟩ := Prod.mk.inj he
    -- the tag does not start with the mark of an indented heredoc
    have hmark : u.taken.head? ≠ some '~' := by
      intro hhead
      obtain ⟨t, ht⟩ := List.head?_eq_some_iff.mp hhead
      exact hplain (t ++ u.rest) (by rw [← whole_tag? htag, Cut.whole, ht]; rfl)
    simp only [Cut.taken_after, List.cons_append, List.nil_append, marker?_of_tag, if_neg hmark,
      tag?_taken htag]
    rfl
  · cases hm

end Heredoc

/-- Whole lines make up their text's lines. -/
theorem Text.lines_flatten_of_append {s : List Char} {ls more : List (List Char)}
    (h : lines s = ls ++ more) : lines more.flatten = more := by
  by_cases hmore : more = []
  · subst hmore
    rfl
  · have hs := lines_flatten_append h hmore more.flatten
    rw [← List.flatten_append, ← h, flatten_lines, h] at hs
    exact (List.append_cancel_left hs).symm

/-! ### Tokens of segments -/

namespace Segment

theorem length_tokens (bodies : List Heredoc.Body) (ss : List Segment) :
    (tokens bodies ss).length = (ss.filterMap (·.token?)).length := by
  induction ss generalizing bodies with
  | nil => rfl
  | cons s ss ih =>
    obtain ⟨text, position, piece⟩ := s
    cases piece with
    | heredoc h => cases bodies <;> exact congrArg (· + 1) (ih _)
    | token | literal => exact congrArg (· + 1) (ih bodies)
    | _ => exact ih bodies

/-- Where all bodies are read by the heredocs before, one more segment adds its token. -/
theorem tokens_concat {bodies : List Heredoc.Body} {ss : List Segment}
    (h : bodies.length ≤ (ss.filterMap (·.heredoc?)).length) (s : Segment) :
    tokens bodies (ss ++ [s]) = tokens bodies ss ++ s.token?.toList := by
  induction ss generalizing bodies with
  | nil =>
    obtain rfl := List.eq_nil_of_length_eq_zero (Nat.le_zero.mp h)
    obtain ⟨text, position, piece⟩ := s
    cases piece <;> rfl
  | cons u ss ih =>
    obtain ⟨text, position, piece⟩ := u
    cases piece with
    | heredoc k =>
      cases bodies with
      | nil => exact congrArg (_ :: ·) (ih (Nat.zero_le _))
      | cons b bodies => exact congrArg (_ :: ·) (ih (Nat.le_of_succ_le_succ h))
    | token | literal => exact congrArg (_ :: ·) (ih h)
    | _ => exact ih h

/-- Heredocs whose lines are missing have nothing added to their markers. -/
theorem tokens_append_unread (bodies : List Heredoc.Body) (hs : List Heredoc) (ss : List Segment) :
    tokens (bodies ++ hs.map Heredoc.unread) ss = tokens bodies ss := by
  induction ss generalizing bodies hs with
  | nil => rfl
  | cons s ss ih =>
    obtain ⟨text, position, piece⟩ := s
    cases piece with
    | heredoc k =>
      cases bodies with
      | cons b bodies => exact congrArg (_ :: ·) (ih bodies hs)
      | nil =>
        cases hs with
        | nil => rfl
        | cons h hs =>
          refine (congrArg (Token.mk _ _ _ :: ·) (ih [] hs)).trans ?_
          simp [tokens, token?, kind?, Heredoc.Body.text, Heredoc.unread]
    | token | literal => exact congrArg (_ :: ·) (ih bodies hs)
    | _ => exact ih bodies hs

end Segment

namespace Buffer

/-! ### Where the markers stand -/

/-- the heredocs that segments announce, each with the index of its marker among their tokens after
`n` others -/
def markers (n : Nat) : List Segment → List Waiting
  | [] => []
  | s :: ss => (s.heredoc?.map fun h => ⟨h, n⟩).toList ++ markers (n + s.token?.toList.length) ss

theorem heredoc_markers (n : Nat) (ss : List Segment) :
    (markers n ss).map (·.heredoc) = ss.filterMap (·.heredoc?) := by
  induction ss generalizing n with
  | nil => rfl
  | cons s ss ih =>
    rw [markers, List.map_append, ih]
    cases h : s.heredoc? <;> simp [h]

theorem length_markers (n : Nat) (ss : List Segment) :
    (markers n ss).length = (ss.filterMap (·.heredoc?)).length := by
  rw [← heredoc_markers n, List.length_map]

theorem markers_concat (n : Nat) (ss : List Segment) (s : Segment) :
    markers n (ss ++ [s]) = markers n ss ++
      (s.heredoc?.map fun h => ⟨h, n + (ss.filterMap (·.token?)).length⟩).toList := by
  induction ss generalizing n with
  | nil => simp [markers]
  | cons u ss ih =>
    rw [List.cons_append, markers, ih, markers, List.append_assoc]
    cases h : u.token? <;> simp [h, Nat.add_assoc, Nat.add_comm 1]

/-- The marker of a heredoc, with as many heredocs before it as there are bodies read before its
own. -/
theorem exists_of_getElem?_markers {n k : Nat} {ss : List Segment} {w : Waiting}
    (h : (markers n ss)[k]? = some w) :
    ∃ before s after, ss = before ++ s :: after ∧ s.piece = .heredoc w.heredoc ∧
      (before.filterMap (·.heredoc?)).length = k ∧
      w.index = n + (before.filterMap (·.token?)).length := by
  induction ss generalizing n k with
  | nil => simp [markers] at h
  | cons s ss ih =>
    rw [markers] at h
    have hlater : ∀ {k' : Nat}, k = (s.heredoc?.toList).length + k' →
        (markers (n + s.token?.toList.length) ss)[k']? = some w →
        ∃ before u after, s :: ss = before ++ u :: after ∧ u.piece = .heredoc w.heredoc ∧
          (before.filterMap (·.heredoc?)).length = k ∧
          w.index = n + (before.filterMap (·.token?)).length := by
      intro k' hk hw
      obtain ⟨before, u, after, rfl, hpiece, hlength, hindex⟩ := ih hw
      refine ⟨s :: before, u, after, rfl, hpiece, ?_, ?_⟩
      · rw [hk]
        cases hs : s.heredoc? <;> simp [hs, hlength, Nat.add_comm]
      · rw [hindex]
        cases hs : s.token? <;> simp [hs, Nat.add_assoc, Nat.add_comm 1]
    cases hs : s.heredoc? with
    | none =>
      rw [hs] at h
      exact hlater (by simp [hs]) h
    | some heredoc =>
      rw [hs] at h
      cases k with
      | zero =>
        obtain rfl := Option.some.inj h
        refine ⟨[], s, ss, rfl, ?_, rfl, rfl⟩
        unfold Segment.heredoc? at hs
        split at hs
        · rename_i hpiece
          rw [hpiece, Option.some.inj hs]
        · cases hs
      | succ k => exact hlater (by simp [hs, Nat.add_comm]) h

/-! ### Bodies and their markers -/

/-- Segments in which the marker of a heredoc is one on its own. -/
def OwnMarkers (ss : List Segment) : Prop :=
  ∀ s ∈ ss, ∀ h, s.piece = .heredoc h →
    Heredoc.marker? s.position s.text = some (h, ⟨s.text, []⟩)

theorem OwnMarkers.concat {ss : List Segment} (h : OwnMarkers ss) {s : Segment}
    (hs : ∀ k, s.piece = .heredoc k → Heredoc.marker? s.position s.text = some (k, ⟨s.text, []⟩)) :
    OwnMarkers (ss ++ [s]) := by
  intro u hu
  rcases List.mem_append.mp hu with hu | hu
  · exact h u hu
  · rw [List.mem_singleton.mp hu]
    exact hs

section Bodies

variable {ss : List Segment} (hown : OwnMarkers ss) {bodies : List Heredoc.Body}
  (hbodies : bodies.map (·.heredoc) <+: ss.filterMap (·.heredoc?))

include hown hbodies

/-- The token that a heredoc's lines are added to is its own marker, and the lines of one more body
are added there. -/
theorem exists_marker {w : Waiting} (hw : (markers 0 ss)[bodies.length]? = some w) :
    ∃ t, (Segment.tokens bodies ss)[w.index]? = some t ∧ w.IsMarkedBy t ∧
      ∀ b : Heredoc.Body, Segment.tokens (bodies ++ [b]) ss =
        (Segment.tokens bodies ss).set w.index
          { t with text := String.ofList (t.text.toList ++ b.text) } := by
  obtain ⟨before, s, after, rfl, hpiece, hlength, hindex⟩ := exists_of_getElem?_markers hw
  -- the bodies before are those of the heredocs before
  have hbefore : before.filterMap (·.heredoc?) = bodies.map (·.heredoc) := by
    obtain ⟨rest, hrest⟩ := hbodies
    rw [List.filterMap_append] at hrest
    exact (List.append_inj hrest (by rw [List.length_map, hlength])).1.symm
  have htokens : ∀ more, Segment.tokens (bodies ++ more) (before ++ s :: after) =
      Segment.tokens bodies before ++ Segment.tokens more (s :: after) := fun more =>
    Segment.tokens_append hbefore more (s :: after)
  have hfirst := htokens []
  rw [List.append_nil] at hfirst
  rw [Nat.zero_add, ← Segment.length_tokens bodies before] at hindex
  have hmarker := hown s (by simp) w.heredoc hpiece
  obtain ⟨text, position, piece⟩ := s
  obtain rfl : piece = .heredoc w.heredoc := hpiece
  refine ⟨⟨.stringLiteral, String.ofList text, position⟩, ?_, ⟨rfl, ?_, ?_⟩, fun b => ?_⟩
  · rw [hfirst, hindex, List.getElem?_append_right (Nat.le_refl _), Nat.sub_self]
    rfl
  · exact (Heredoc.position_of_marker? hmarker).symm
  · simpa using hmarker
  · rw [htokens, hfirst, hindex, List.set_append_right _ _ (Nat.le_refl _), Nat.sub_self]
    simp [Segment.tokens, Segment.token?, Segment.kind?]

theorem appendBody?_tokens {w : Waiting} (hw : (markers 0 ss)[bodies.length]? = some w)
    (b : Heredoc.Body) :
    appendBody? (Segment.tokens bodies ss) w b.text =
      some (Segment.tokens (bodies ++ [b]) ss) := by
  obtain ⟨t, ht, hmarked, hset⟩ := exists_marker hown hbodies hw
  rw [appendBody?, ht, Option.bind_some, if_pos hmarked, hset]

end Bodies

/-- **The lines after a newline.**  The heredocs that wait read their lines without failing, and
each has them added to its own marker. -/
theorem State.readBodies_of_before {text : List Char} {ss : List Segment} (hown : OwnMarkers ss)
    {bodies : List Heredoc.Body} (hbodies : bodies.map (·.heredoc) <+: ss.filterMap (·.heredoc?))
    {ws : List Waiting} (hws : (markers 0 ss).drop bodies.length = ws) {m : State}
    (hm : m.tokens = Segment.tokens bodies ss) {s : List Char} (hb : m.cursor.Before text s) :
    let read := Heredoc.readAll (ws.map (·.heredoc)) (Text.lines s)
    readBodies text ws m = some
      { m with
        cursor := m.cursor.advance (read.1.flatMap (·.source)).flatten
        tokens := Segment.tokens (bodies ++ read.1) ss
        notices := m.notices ++
          (read.1.filter (·.closing.isNone)).map fun b => b.heredoc.unterminated } := by
  induction ws generalizing bodies m s with
  | nil => simp [readBodies, Heredoc.readAll, ← hm]
  | cons w ws ih =>
    have hw : (markers 0 ss)[bodies.length]? = some w := by
      rw [← Nat.add_zero bodies.length, ← List.getElem?_drop, hws]
      rfl
    have hmore : (markers 0 ss).drop (bodies.length + 1) = ws := by
      rw [← List.drop_drop, hws]
      rfl
    have hheredoc := w.heredoc.heredoc_read (Text.lines s)
    have hsource := w.heredoc.source_read (Text.lines s)
    have hbody := Cursor.readBody_of_before w.heredoc [] hb
    dsimp only at hbody ⊢
    rw [List.map_cons, Heredoc.readAll_cons, readBodies, hbody, Option.bind_some]
    generalize w.heredoc.read (Text.lines s) = read at *
    obtain ⟨b, rest⟩ := read
    change b.heredoc = w.heredoc at hheredoc
    -- the heredocs of the bodies read so far
    have hsplit : ss.filterMap (·.heredoc?) =
        bodies.map (·.heredoc) ++ (w :: ws).map (·.heredoc) := by
      rw [← hws, List.map_drop, heredoc_markers, ← List.prefix_iff_eq_append.mp hbodies]
      simp
    have hprefix : (bodies ++ [b]).map (·.heredoc) <+: ss.filterMap (·.heredoc?) :=
      ⟨ws.map (·.heredoc), by rw [hsplit]; simp [hheredoc]⟩
    have hrest : Text.lines rest.flatten = rest := Text.lines_flatten_of_append hsource.symm
    have hnext : (m.cursor.advance b.source.flatten).Before text rest.flatten := by
      refine Cursor.Before.advance ?_
      rw [← List.flatten_append, hsource, Text.flatten_lines]
      exact hb
    dsimp only
    rw [List.nil_append, hm, appendBody?_tokens hown hbodies hw b, Option.bind_some,
      ih hprefix (by rw [List.length_append]; exact hmore) rfl hnext, hrest]
    cases hclosing : b.closing <;> simp [hclosing, hheredoc]

end Buffer

end WordRole
