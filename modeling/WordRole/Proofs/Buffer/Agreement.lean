import WordRole.Proofs.Buffer.Markers

/-!
# The lexer stays in its buffer

The run over a buffer never fails, whatever the buffer holds, and its result is that of the lexer.
It keeps to the segments of the source:

* `State.Follows`: what a state knows of the segments before its cursor;
* `State.Follows.take`, `State.Follows.newline_read`: what it knows after one more;
* `State.Stands.step`: a step goes on to stand after the next segments;
* `State.run_of_stands`: so does the run, up to the end;
* `lex?_eq_some_and_safe`: no state of a run can fail.
-/

namespace WordRole

open Text (Cut)
open Lexeme

/-! ### What is asked of the last token -/

/-- what a token tells the lexer about the next one; the text of a string does not matter -/
def Token.gist (t : Token) : TokenKind × Option String :=
  (t.kind, if t.kind = .stringLiteral then none else some t.text)

namespace Context

/-- What is asked of the last token is told by its gist. -/
theorem tests_congr {ctx ctx' : Context}
    (h : ctx.last.map Token.gist = ctx'.last.map Token.gist) :
    ctx.afterArrow = ctx'.afterArrow ∧ ctx.afterValue = ctx'.afterValue ∧
      ctx.expectsPattern = ctx'.expectsPattern := by
  unfold afterArrow afterValue expectsPattern
  generalize ctx.last = last at h ⊢
  generalize ctx'.last = last' at h ⊢
  match last, last', h with
  | none, none, _ => exact ⟨rfl, rfl, rfl⟩
  | some ⟨kind, t, p⟩, some ⟨kind', t', p'⟩, h =>
    obtain ⟨hkind, htext⟩ := Prod.mk.inj (Option.some.inj h)
    obtain rfl : kind = kind' := hkind
    cases kind
    case stringLiteral => exact ⟨rfl, rfl, rfl⟩
    all_goals
      obtain rfl : t = t' := Option.some.inj htext
      exact ⟨rfl, rfl, rfl⟩

/-- Only the lines of heredocs, and a newline, change which heredocs are due. -/
theorem after_of_not_isNewline (ctx : Context) {s : Segment}
    (hlines : ∀ bodies, s.piece ≠ .heredocLines bodies) (hnewline : ¬s.IsNewline) :
    (ctx.after s).due = ctx.due ∧
      (ctx.after s).announced = ctx.announced ++ s.heredoc?.toList := by
  unfold after Segment.heredoc?
  cases hpiece : s.piece with
  | heredocLines bodies => exact absurd hpiece (hlines bodies)
  | blank => simp [show s.text ≠ ['\n'] from fun ht => hnewline ⟨hpiece, ht⟩]
  | _ => simp

theorem cut_congr {ctx ctx' : Context} (hposition : ctx.position = ctx'.position)
    (hdue : ctx.due = ctx'.due) (hlast : ctx.last.map Token.gist = ctx'.last.map Token.gist)
    (c : Char) (cs : List Char) : ctx.cut c cs = ctx'.cut c cs := by
  obtain ⟨harrow, hvalue, hpattern⟩ := tests_congr hlast
  unfold cut cutWord cutSymbol
  simp only [hposition, hdue, harrow, hvalue, hpattern]

end Context

theorem Heredoc.readAll_no_lines (hs : List Heredoc) :
    readAll hs [] = (hs.map unread, []) := by
  induction hs with
  | nil => rfl
  | cons h hs ih =>
    rw [readAll_cons, show h.read [] = (h.unread, []) from rfl, ih]
    rfl

/-- The lines that are added to markers do not change the gist of any token. -/
theorem Segment.gist_tokens (bodies : List Heredoc.Body) (ss : List Segment) :
    (tokens bodies ss).map Token.gist = (ss.filterMap (·.token?)).map Token.gist := by
  induction ss generalizing bodies with
  | nil => rfl
  | cons s ss ih =>
    obtain ⟨text, position, piece⟩ := s
    cases piece with
    | heredoc h => cases bodies <;> exact congrArg (_ :: ·) (ih _)
    | token | literal => exact congrArg (_ :: ·) (ih bodies)
    | _ => exact ih bodies

namespace Buffer

/-- what is lexed where the segments end in a context -/
def lexedOf (ss : List Segment) (last : Context) : Lexed where
  tokens := Segment.tokens (ss.flatMap (·.bodies)) ss
  notices := ss.flatMap (·.notices) ++ (last.due ++ last.announced).map Heredoc.unterminated

namespace State

/-- **The invariant.**  What a state of the run over a buffer knows of the segments before its
cursor, which end in a context.  Heredocs that are due at the end of the buffer have been told of
already. -/
structure Follows (m : State) (ctx : Context) (before : List Segment) : Prop where
  position : m.cursor.position = ctx.position
  last : ctx.last = (before.filterMap (·.token?)).getLast?
  tokens : m.tokens = Segment.tokens (before.flatMap (·.bodies)) before
  notices : m.notices = before.flatMap (·.notices) ++ ctx.due.map Heredoc.unterminated
  /-- the heredocs so far are those that are read and those that wait, in order -/
  heredocs : before.filterMap (·.heredoc?) =
    (before.flatMap (·.bodies)).map (·.heredoc) ++ (ctx.due ++ ctx.announced)
  /-- the indices of those that wait are those of their markers -/
  waiting : m.waiting =
    (markers 0 before).drop ((before.flatMap (·.bodies)).length + ctx.due.length)
  own : OwnMarkers before

theorem follows_start : start.Follows .start [] where
  position := rfl
  last := rfl
  tokens := rfl
  notices := rfl
  heredocs := rfl
  waiting := rfl
  own := by simp [OwnMarkers]

/-- the state after a newline and the lines behind it, with what the heredocs that wait take -/
def afterNewline (m : State) (before : List Segment) (bodies : List Heredoc.Body) : State where
  cursor := (m.cursor.advance ['\n']).advance (bodies.flatMap (·.source)).flatten
  tokens := Segment.tokens (before.flatMap (·.bodies) ++ bodies) before
  notices := m.notices ++ (bodies.filter (·.closing.isNone)).map fun b => b.heredoc.unterminated
  waiting := []

/-- Heredocs without lines leave the cursor behind the newline. -/
theorem afterNewline_unread (m : State) (before : List Segment) (hs : List Heredoc) :
    m.afterNewline before (hs.map Heredoc.unread) =
      { cursor := m.cursor.advance ['\n']
        tokens := Segment.tokens (before.flatMap (·.bodies) ++ hs.map Heredoc.unread) before
        notices := m.notices ++ hs.map Heredoc.unterminated
        waiting := [] } := by
  have hsource : (hs.map Heredoc.unread).flatMap (·.source) = [] := by
    simp [Heredoc.unread, Heredoc.Body.source]
  have hnotices : ((hs.map Heredoc.unread).filter (·.closing.isNone)).map
      (fun b => b.heredoc.unterminated) = hs.map Heredoc.unterminated := by
    simp [List.filter_map, Heredoc.unread, Function.comp_def]
  unfold afterNewline
  rw [hsource, hnotices, List.flatten_nil, Cursor.advance_nil]

section Follows

variable {m : State} {ctx : Context} {before : List Segment} (h : m.Follows ctx before)

include h

theorem Follows.heredoc_waiting : m.waiting.map (·.heredoc) = ctx.announced := by
  rw [h.waiting, List.map_drop, heredoc_markers, h.heredocs, ← List.append_assoc,
    List.drop_left' (by simp)]

theorem Follows.lexed : m.lexed = lexedOf before ctx := by
  have hwaiting := congrArg (List.map Heredoc.unterminated) h.heredoc_waiting
  rw [List.map_map] at hwaiting
  unfold State.lexed lexedOf
  rw [h.tokens, h.notices, List.map_append, List.append_assoc, ← hwaiting]
  rfl

/-- The state and the context have the same segment next. -/
theorem Follows.cut (hdue : ctx.due = []) (ch : Char) (s : List Char) :
    m.context.cut ch s = ctx.cut ch s := by
  refine Context.cut_congr h.position hdue.symm ?_ ch s
  show m.tokens.getLast?.map Token.gist = _
  rw [h.last, h.tokens, ← List.getLast?_map, ← List.getLast?_map, Segment.gist_tokens]

theorem Follows.length_bodies_le :
    (before.flatMap (·.bodies)).length + (ctx.due ++ ctx.announced).length =
      (before.filterMap (·.heredoc?)).length := by
  rw [h.heredocs]
  simp

/-- A segment that holds no lines of heredocs, and is no newline, after which some may be due. -/
theorem Follows.take (hdue : ctx.due = []) {s : Segment}
    (hlines : ∀ bodies, s.piece ≠ .heredocLines bodies) (hnewline : ¬s.IsNewline)
    (hown : ∀ k, s.piece = .heredoc k →
      Heredoc.marker? s.position s.text = some (k, ⟨s.text, []⟩)) :
    (m.take s).Follows (ctx.after s) (before ++ [s]) := by
  obtain ⟨hdue', hannounced⟩ := ctx.after_of_not_isNewline hlines hnewline
  have hbodies : s.bodies = [] := by
    unfold Segment.bodies
    split
    · rename_i bodies hpiece
      exact absurd hpiece (hlines bodies)
    · rfl
  have hlength := h.length_bodies_le
  rw [hdue] at hdue' hlength
  refine ⟨?_, ?_, ?_, ?_, ?_, ?_, ?_⟩
  · show m.cursor.position.afterAll s.text = ctx.position.afterAll s.text
    rw [h.position]
  · show s.token?.or ctx.last = _
    rw [h.last, List.filterMap_append]
    cases ht : s.token? <;> simp [ht]
  · show m.tokens ++ s.token?.toList = _
    rw [List.flatMap_append, List.flatMap_singleton, hbodies, List.append_nil,
      Segment.tokens_concat (by omega), h.tokens]
  · show m.notices ++ s.notices = _
    rw [h.notices, hdue, hdue']
    simp
  · rw [hdue', hannounced, List.filterMap_append, h.heredocs, hdue]
    cases hs : s.heredoc? <;> simp [hs, hbodies]
  · show m.waiting ++ _ = _
    rw [h.waiting, h.tokens, hdue, hdue', markers_concat, Segment.length_tokens,
      List.flatMap_append, List.flatMap_singleton, hbodies, List.append_nil, Nat.zero_add,
      List.drop_append_of_le_length (by rw [length_markers, ← hlength]; simp)]
  · exact h.own.concat hown

/-- A newline with no lines after it, or no heredoc that waits for them. -/
theorem Follows.newline_unread (hdue : ctx.due = []) :
    (m.afterNewline before (ctx.announced.map Heredoc.unread)).Follows
      (ctx.after ⟨['\n'], ctx.position, .blank⟩) (before ++ [⟨['\n'], ctx.position, .blank⟩]) := by
  have hlength := h.length_bodies_le
  rw [hdue, List.nil_append] at hlength
  generalize hs : (⟨['\n'], ctx.position, .blank⟩ : Segment) = s
  have htoken : s.token? = none := by rw [← hs]; rfl
  have hheredoc : s.heredoc? = none := by rw [← hs]; rfl
  have hbodies : (before ++ [s]).flatMap (·.bodies) = before.flatMap (·.bodies) := by
    rw [List.flatMap_append, ← hs]
    exact List.append_nil _
  have hafter : ctx.after s = ⟨ctx.position.afterAll ['\n'], ctx.last, [], ctx.announced⟩ := by
    rw [← hs]
    rfl
  rw [hafter, afterNewline_unread]
  refine ⟨?_, ?_, ?_, ?_, ?_, ?_, ?_⟩
  · show m.cursor.position.afterAll ['\n'] = _
    rw [h.position]
  · show ctx.last = _
    rw [h.last, List.filterMap_append]
    simp [htoken]
  · rw [hbodies, Segment.tokens_append_unread, Segment.tokens_concat (by omega), htoken]
    simp
  · rw [h.notices, hdue, List.flatMap_append, ← hs]
    simp [Segment.notices]
  · rw [hbodies, List.filterMap_append, h.heredocs, hdue]
    simp [hheredoc]
  · refine (List.drop_eq_nil_of_le ?_).symm
    rw [length_markers, hbodies, List.filterMap_append, List.length_append, ← hlength]
    simp [hheredoc]
  · refine h.own.concat fun k hk => ?_
    rw [← hs] at hk
    cases hk

/-- The lines that the heredocs take which are due. -/
theorem Follows.lines (hannounced : ctx.announced = []) {s : Segment} {bodies : List Heredoc.Body}
    (hpiece : s.piece = .heredocLines bodies) (hheredocs : bodies.map (·.heredoc) = ctx.due) :
    State.Follows
      { cursor := m.cursor.advance s.text
        tokens := Segment.tokens (before.flatMap (·.bodies) ++ bodies) before
        notices := before.flatMap (·.notices) ++
          (bodies.filter (·.closing.isNone)).map fun b => b.heredoc.unterminated
        waiting := [] }
      (ctx.after s) (before ++ [s]) := by
  obtain ⟨text, position, piece⟩ := s
  obtain rfl : piece = .heredocLines bodies := hpiece
  have hlength := h.length_bodies_le
  rw [hannounced, List.append_nil, ← hheredocs, List.length_map, ← List.length_append] at hlength
  have hbodies : (before ++ [(⟨text, position, .heredocLines bodies⟩ : Segment)]).flatMap
      (·.bodies) = before.flatMap (·.bodies) ++ bodies := by
    rw [List.flatMap_append]
    exact congrArg _ (List.append_nil _)
  have hafter : ctx.after ⟨text, position, .heredocLines bodies⟩ =
      ⟨ctx.position.afterAll text, ctx.last, [], []⟩ :=
    congrArg (fun announced => Context.mk _ _ announced []) hannounced
  rw [hafter]
  refine ⟨?_, ?_, ?_, ?_, ?_, ?_, ?_⟩
  · show m.cursor.position.afterAll text = _
    rw [h.position]
  · show ctx.last = _
    rw [h.last, List.filterMap_append]
    exact congrArg _ (List.append_nil _).symm
  · rw [hbodies, Segment.tokens_concat (by omega)]
    exact (List.append_nil _).symm
  · simp [Segment.notices]
  · rw [hbodies, List.filterMap_append, h.heredocs, hannounced, List.map_append, hheredocs]
    simp [Segment.heredoc?]
  · refine (List.drop_eq_nil_of_le ?_).symm
    rw [length_markers, hbodies, List.filterMap_append, List.length_append, ← hlength]
    simp [Segment.heredoc?]
  · exact h.own.concat fun k hk => by cases hk

/-- A newline and the lines after it that the heredocs take which wait there. -/
theorem Follows.newline_read (hdue : ctx.due = []) {bodies : List Heredoc.Body}
    (hheredocs : bodies.map (·.heredoc) = ctx.announced) {taken : List Char}
    (htaken : (bodies.flatMap (·.source)).flatten = taken) {p : Position} :
    (m.afterNewline before bodies).Follows
      ((ctx.after ⟨['\n'], ctx.position, .blank⟩).after ⟨taken, p, .heredocLines bodies⟩)
      (before ++ [⟨['\n'], ctx.position, .blank⟩, ⟨taken, p, .heredocLines bodies⟩]) := by
  have hlines := (h.newline_unread hdue).lines rfl (s := ⟨taken, p, .heredocLines bodies⟩) rfl
    hheredocs
  rw [afterNewline_unread] at hlines
  have hlength := h.length_bodies_le
  rw [hdue, List.nil_append, ← hheredocs, List.length_map, ← List.length_append] at hlength
  generalize hs : (⟨['\n'], ctx.position, .blank⟩ : Segment) = s at *
  -- the newline adds nothing
  have htokens : Segment.tokens (before.flatMap (·.bodies) ++ bodies) before =
      Segment.tokens ((before ++ [s]).flatMap (·.bodies) ++ bodies) (before ++ [s]) := by
    have hbodies : (before ++ [s]).flatMap (·.bodies) = before.flatMap (·.bodies) := by
      rw [List.flatMap_append, ← hs]
      exact List.append_nil _
    have htoken : s.token? = none := by rw [← hs]; rfl
    rw [hbodies, Segment.tokens_concat hlength.le, htoken]
    exact (List.append_nil _).symm
  have hnotices : m.notices = (before ++ [s]).flatMap (·.notices) := by
    rw [h.notices, hdue, List.flatMap_append, ← hs]
    rfl
  unfold afterNewline
  rw [List.append_cons before, htokens, hnotices, htaken]
  exact hlines

end Follows

/-! ### The run -/

/-- **Where a run stands.**  A state follows the segments before its cursor, and the cursor stands
before the text that is left. -/
structure Stands (text : List Char) (m : State) (ctx : Context) (before : List Segment)
    (s : List Char) : Prop where
  follows : m.Follows ctx before
  before : m.cursor.Before text s
  /-- lines that are due have been read unless there are none -/
  due : ctx.due ≠ [] → s = []

theorem stands_start (text : List Char) : Stands text start .start [] text :=
  ⟨follows_start, Cursor.before_start text, fun h => absurd rfl h⟩

/-- A step over a newline reads the lines of the heredocs that wait there. -/
theorem Stands.step_eq_afterNewline {text : List Char} {m : State} {ctx : Context}
    {before : List Segment} {s : List Char} (h : Stands text m ctx before ('\n' :: s))
    (hdue : ctx.due = []) :
    step text m =
      some (true, m.afterNewline before (Heredoc.readAll ctx.announced (Text.lines s)).1) := by
  have hwaiting := h.follows.waiting
  rw [hdue, List.length_nil, Nat.add_zero] at hwaiting
  have hread := readBodies_of_before h.follows.own
    (by rw [h.follows.heredocs]; exact List.prefix_append _ _) hwaiting.symm
    (m := { m with cursor := m.cursor.advance ['\n'], waiting := [] }) h.follows.tokens
    h.before.tail
  dsimp only at hread
  rw [h.follows.heredoc_waiting] at hread
  unfold step
  dsimp only
  rw [h.before.peek 0, h.before.bump]
  dsimp only [List.getElem?_cons_zero]
  rw [if_pos rfl, hread]
  rfl

/-- A newline, after which the heredocs that wait there take their lines. -/
theorem Stands.step_newline {text : List Char} {m : State} {ctx : Context} {before : List Segment}
    {s : List Char} (h : Stands text m ctx before ('\n' :: s)) (hdue : ctx.due = []) :
    ∃ m' ctx' next s', step text m = some (true, m') ∧
      Stands text m' ctx' (before ++ next) s' ∧ s'.length ≤ s.length ∧
      ctx.segments ('\n' :: s) = (next ++ (ctx'.segments s').1, (ctx'.segments s').2) := by
  have hfollows := h.follows
  have hstep := h.step_eq_afterNewline hdue
  have hunread := hfollows.newline_unread hdue
  obtain ⟨p, last, announced, due⟩ := ctx
  obtain rfl : due = [] := hdue
  have hsegments : (Context.mk p last announced []).segments ('\n' :: s) = _ :=
    Context.leads_newline p last announced s
  dsimp only at hstep hunread
  by_cases hnone : announced = [] ∨ s = []
  · -- nothing is read
    have hall : (Heredoc.readAll announced (Text.lines s)).1 = announced.map Heredoc.unread := by
      rcases hnone with rfl | rfl
      · rfl
      · exact congrArg Prod.fst (Heredoc.readAll_no_lines announced)
    rw [hall] at hstep
    refine ⟨_, _, _, s, hstep, ⟨hunread, ?_, hnone.resolve_left⟩, Nat.le_refl _, hsegments⟩
    rw [afterNewline_unread]
    exact h.before.tail
  · obtain ⟨hannounced, hs⟩ := not_or.mp hnone
    obtain ⟨d, ds, rfl⟩ := List.exists_cons_of_ne_nil hs
    obtain ⟨bodies, taken, rest, hbodies⟩ : ∃ bodies taken rest,
        Heredoc.bodies announced (d :: ds) = (bodies, ⟨taken, rest⟩) := ⟨_, _, _, rfl⟩
    have hall : (Heredoc.readAll announced (Text.lines (d :: ds))).1 = bodies :=
      congrArg Prod.fst hbodies
    have htaken : (bodies.flatMap (·.source)).flatten = taken :=
      hall ▸ congrArg (·.2.taken) hbodies
    have hheredocs : bodies.map (·.heredoc) = announced :=
      hall ▸ Heredoc.heredoc_readAll announced _
    have hcut : (Context.mk (p.after '\n') last [] announced).cut d ds =
        (.heredocLines bodies, ⟨taken, rest⟩) := by
      rw [Context.cut, if_pos hannounced, hbodies]
    have hless := Context.length_rest_cut_lt ⟨p.after '\n', last, [], announced⟩ d ds
    have hmore := Context.segments_cons
      (show ((Context.mk (p.after '\n') last [] announced).cut d ds).1 ≠ .endMarker by
        rw [hcut]; exact Piece.noConfusion)
    have hrest := h.before.tail.cut (Heredoc.whole_bodies announced (d :: ds))
    rw [hcut] at hless hmore
    rw [hbodies] at hrest
    rw [hmore] at hsegments
    rw [hall] at hstep
    refine ⟨_, _, [_, ⟨taken, p.after '\n', .heredocLines bodies⟩], rest, hstep,
      ⟨hfollows.newline_read rfl hheredocs htaken, ?_, fun hdue => absurd rfl hdue⟩,
      Nat.le_of_lt hless, hsegments⟩
    rw [afterNewline, htaken]
    exact hrest

/-- **A step.**  It succeeds, and goes on to stand after the next segments; it tells that there is
no code left just where they end with an end marker. -/
theorem Stands.step {text : List Char} {m : State} {ctx : Context} {before : List Segment}
    {ch : Char} {s : List Char} (h : Stands text m ctx before (ch :: s)) :
    ∃ more m' ctx' next s', step text m = some (more, m') ∧
      Stands text m' ctx' (before ++ next) s' ∧ s'.length < (ch :: s).length ∧
      ctx.segments (ch :: s) =
        if more then (next ++ (ctx'.segments s').1, (ctx'.segments s').2) else (next, ctx') := by
  have hdue : ctx.due = [] := by
    by_contra hdue
    cases h.due hdue
  by_cases hch : ch = '\n'
  · subst hch
    obtain ⟨m', ctx', next, s', hstep, hstands, hle, hsegments⟩ := h.step_newline hdue
    exact ⟨true, m', ctx', next, s', hstep, hstands, Nat.lt_succ_of_le hle, hsegments⟩
  -- one segment that is no newline and holds no lines
  have hwhole := ctx.whole_cut ch s
  have hstep := step_of_before h.before hch
  have hposition : m.context.position = ctx.position := h.follows.position
  unfold taking Context.segment at hstep
  rw [h.follows.cut hdue, hposition] at hstep
  have hlines : ∀ bodies, (ctx.cut ch s).1 ≠ .heredocLines bodies := fun bodies hpiece =>
    (ctx.heredocLines_cut_iff ch s).mp ⟨bodies, hpiece⟩ hdue
  have hnewline : ¬(ctx.segment (ctx.cut ch s)).IsNewline := by
    rintro ⟨-, htext⟩
    have htaken : (ctx.cut ch s).2.taken = ['\n'] := htext
    have hfirst := hwhole.1
    rw [Cut.whole, htaken] at hfirst
    exact hch (List.cons.inj hfirst).1.symm
  refine ⟨_, _, ctx.after (ctx.segment (ctx.cut ch s)), [ctx.segment (ctx.cut ch s)], _, hstep,
    ⟨h.follows.take hdue hlines hnewline fun k hk => ?_, h.before.cut hwhole.1, fun hdue' => ?_⟩,
    ctx.length_rest_cut_lt ch s, ?_⟩
  · exact Heredoc.marker?_taken (Context.marker?_of_cut hk)
  · rw [(ctx.after_of_not_isNewline hlines hnewline).1] at hdue'
    exact absurd hdue hdue'
  · rw [Context.segments]
    by_cases hend : (ctx.cut ch s).1 = .endMarker
    · rw [if_pos hend, if_neg (by simpa using hend)]
    · rw [if_neg hend, if_pos (by simpa using hend)]
      rfl

/-- **The run.**  It succeeds, and lexes what the segments tell. -/
theorem run_of_stands {text : List Char} {m : State} {ctx : Context} {before : List Segment}
    {s : List Char} (h : Stands text m ctx before s) :
    run text m = some (lexedOf (before ++ (ctx.segments s).1) (ctx.segments s).2) := by
  induction hn : s.length using Nat.strongRecOn generalizing m ctx before s with
  | ind n ih =>
    cases s with
    | nil =>
      have hend : step text m = some (false, m) := by rw [step, h.before.peek]; rfl
      rw [run, Context.segments, List.append_nil, ← h.follows.lexed]
      simp [hend]
    | cons ch s =>
      obtain ⟨more, m', ctx', next, s', hstep, hstands, hless, hsegments⟩ := h.step
      rw [hsegments]
      cases more with
      | false =>
        rw [run]
        simp [hstep, hstands.follows.lexed]
      | true =>
        have hindex := h.before.index_add_length
        have hindex' := hstands.before.index_add_length
        rw [run]
        simp only [hstep]
        rw [if_pos (by omega), ih s'.length (hn ▸ hless) hstands rfl, List.append_assoc]
        rfl

/-! ### The states of a run -/

theorem Reaches.stands {text : List Char} {m : State} (h : Reaches text m) :
    ∃ ctx before s, Stands text m ctx before s := by
  induction h with
  | start => exact ⟨_, _, _, stands_start text⟩
  | @step m m' _ hstep ih =>
    obtain ⟨ctx, before, s, hstands⟩ := ih
    cases s with
    | nil =>
      rw [State.step, hstands.before.peek] at hstep
      cases hstep
    | cons ch s =>
      obtain ⟨more, m'', ctx', next, s', hnext, hstands', -⟩ := hstands.step
      obtain ⟨-, rfl⟩ := Prod.mk.inj (Option.some.inj (hnext.symm.trans hstep))
      exact ⟨ctx', before ++ next, s', hstands'⟩

/-- The markers of the heredocs that wait are there, and nothing has been added to them. -/
theorem Follows.exists_marker {m : State} {ctx : Context} {before : List Segment}
    (h : m.Follows ctx before) {w : Waiting} (hw : w ∈ m.waiting) :
    ∃ t, m.tokens[w.index]? = some t ∧ w.IsMarkedBy t := by
  obtain ⟨j, hj⟩ := List.mem_iff_getElem?.mp hw
  rw [h.waiting, List.getElem?_drop] at hj
  have hlength := h.length_bodies_le
  have hk := (List.getElem?_eq_some_iff.mp hj).1
  rw [length_markers] at hk
  -- the heredocs that wait before it might as well have been read, without lines
  generalize hearlier : (ctx.due ++ ctx.announced).take (ctx.due.length + j) = earlier
  have hprefix : (before.flatMap (·.bodies) ++ earlier.map Heredoc.unread).map (·.heredoc) <+:
      before.filterMap (·.heredoc?) := by
    rw [h.heredocs, List.map_append, List.prefix_append_right_inj, ← hearlier, List.map_map]
    simpa [Function.comp_def, Heredoc.unread] using List.take_prefix _ _
  have hcount : (before.flatMap (·.bodies) ++ earlier.map Heredoc.unread).length =
      (before.flatMap (·.bodies)).length + ctx.due.length + j := by
    rw [List.length_append, List.length_map, ← hearlier, List.length_take]
    omega
  obtain ⟨t, ht, hmarked, -⟩ := Buffer.exists_marker h.own hprefix (w := w) (by rw [hcount, hj])
  rw [Segment.tokens_append_unread, ← h.tokens] at ht
  exact ⟨t, ht, hmarked⟩

/-- What a state cannot fail at: its cursor is in the buffer, the slices of a heredoc's tag are, the
lookup of a symbol is where there is a character, and each heredoc that waits has its own marker
under the index saved with it. -/
structure Safe (text : List Char) (m : State) : Prop where
  inside : m.cursor.index ≤ text.length
  step : (step text m).isSome = true
  marker : (m.cursor.markerAt? text).isSome = true
  symbol : (m.cursor.peek text 0).isSome = true →
    (symbolAt? text m.cursor.index).isSome = true
  waiting : ∀ w ∈ m.waiting, ∃ t, m.tokens[w.index]? = some t ∧ w.IsMarkedBy t

theorem Reaches.safe {text : List Char} {m : State} (h : Reaches text m) : Safe text m := by
  obtain ⟨ctx, before, s, hstands⟩ := h.stands
  have hlength := hstands.before.index_add_length
  refine ⟨by omega, ?_, ?_, fun hpeek => ?_, fun w => hstands.follows.exists_marker⟩
  · cases s with
    | nil => rw [State.step, hstands.before.peek]; rfl
    | cons ch s =>
      obtain ⟨more, m', -, -, -, hstep, -⟩ := hstands.step
      rw [hstep]
      rfl
  · rw [Cursor.markerAt?_of_before hstands.before]
    rfl
  · have hin : m.cursor.index < text.length := Cursor.lt_length_of_peek text hpeek
    rw [symbolAt?_of_lt hin]
    rfl

end State

/-- The lexer over the buffer of a source. -/
def lex? (content : String) : Option Lexed := State.run content.toList .start

/-- **The lexer stays in its buffer.**  Whatever a source is, the run over its buffer succeeds with
the result of the lexer, and every state on the way is safe. -/
theorem lex?_eq_some_and_safe (content : String) :
    lex? content = some (lex content) ∧
      ∀ m, State.Reaches content.toList m → State.Safe content.toList m :=
  ⟨State.run_of_stands (State.stands_start content.toList), fun _ => State.Reaches.safe⟩

/-- A heredoc whose tag has no closing quote, at the end of its source. -/
theorem lex?_eq_some_and_safe_openTag :
    lex? "<<'A" = some (lex "<<'A") ∧ State.Safe "<<'A".toList .start :=
  have h := lex?_eq_some_and_safe "<<'A"
  ⟨h.1, h.2 .start .start⟩

end Buffer

end WordRole
