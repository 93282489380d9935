import WordRole.Lexing

/-!
# Texts further down

A text that stands a number of lines further down is cut into the same segments, at positions as
many lines further down (`Context.Below.segments`).  Of what is before it the run knows only the
heredocs that are announced, the column, and what three tests tell of the last token.

* `Context.Below.cut`, `Context.Below.after`: the next segment, and the context after it;
* `Segment.tokens_down`, `Segment.notices_down`: what is read off the segments.
-/

namespace WordRole

/-! ### Positions -/

/-- the same column some lines further down -/
def Position.down (n : Nat) (p : Position) : Position := ⟨p.line + n, p.column⟩

theorem Position.after_down (n : Nat) (p : Position) (c : Char) :
    (p.down n).after c = (p.after c).down n := by
  by_cases hc : c = '\n'
  · subst hc
    simp only [after_newline, down]
    rw [Nat.add_right_comm]
  · rw [after_of_ne _ hc, after_of_ne _ hc]
    rfl

theorem Position.afterAll_down (n : Nat) (p : Position) (cs : List Char) :
    (p.down n).afterAll cs = (p.afterAll cs).down n := by
  induction cs generalizing p with
  | nil => rfl
  | cons c cs ih => rw [afterAll_cons, afterAll_cons, after_down, ih]

def Token.down (n : Nat) (t : Token) : Token := { t with position := t.position.down n }

def Notice.down (n : Nat) (notice : Notice) : Notice :=
  { notice with position := notice.position.down n }

/-! ### Heredocs -/

namespace Heredoc

def down (n : Nat) (h : Heredoc) : Heredoc := { h with position := h.position.down n }

def Body.down (n : Nat) (b : Body) : Body := { b with heredoc := b.heredoc.down n }

theorem marker?_down (n : Nat) (p : Position) (s : List Char) :
    marker? (p.down n) s = (marker? p s).map fun m => (m.1.down n, m.2) := by
  unfold marker?
  split
  · rw [Option.map_map]
    rfl
  · rw [Option.map_map]
    rfl
  · rfl

theorem read_down (n : Nat) (h : Heredoc) (ls : List (List Char)) :
    (h.down n).read ls = ((h.read ls).1.down n, (h.read ls).2) := by
  have hclosed : ∀ l, (h.down n).isClosedBy l = h.isClosedBy l := fun _ => rfl
  simp only [read, hclosed]
  split <;> rfl

theorem readAll_down (n : Nat) (hs : List Heredoc) (ls : List (List Char)) :
    readAll (hs.map (down n)) ls = ((readAll hs ls).1.map (Body.down n), (readAll hs ls).2) := by
  induction hs generalizing ls with
  | nil => rfl
  | cons h hs ih =>
    rw [List.map_cons, readAll, read_down, ih]
    rfl

theorem bodies_down (n : Nat) (hs : List Heredoc) (s : List Char) :
    bodies (hs.map (down n)) s = ((bodies hs s).1.map (Body.down n), (bodies hs s).2) := by
  simp only [bodies, readAll_down, List.flatMap_map]
  rfl

theorem map_unterminated_down (n : Nat) (hs : List Heredoc) :
    (hs.map (down n)).map unterminated = (hs.map unterminated).map (·.down n) := by
  rw [List.map_map, List.map_map]
  rfl

end Heredoc

/-! ### Segments -/

def Piece.down (n : Nat) : Piece → Piece
  | .heredocLines bodies => .heredocLines (bodies.map (·.down n))
  | .heredoc h => .heredoc (h.down n)
  | piece => piece

theorem Piece.down_eq_endMarker_iff {n : Nat} {piece : Piece} :
    piece.down n = .endMarker ↔ piece = .endMarker := by
  cases piece <;> simp only [down, reduceCtorEq]

namespace Segment

def down (n : Nat) (s : Segment) : Segment := ⟨s.text, s.position.down n, s.piece.down n⟩

theorem kind?_down (n : Nat) (s : Segment) : (s.down n).kind? = s.kind? := by
  obtain ⟨text, position, piece⟩ := s
  cases piece <;> rfl

theorem token?_down (n : Nat) (s : Segment) : (s.down n).token? = s.token?.map (·.down n) := by
  unfold token?
  rw [kind?_down, Option.map_map]
  rfl

theorem bodies_down (n : Nat) (s : Segment) : (s.down n).bodies = s.bodies.map (·.down n) := by
  obtain ⟨text, position, piece⟩ := s
  cases piece <;> rfl

theorem notices_down (n : Nat) (s : Segment) : (s.down n).notices = s.notices.map (·.down n) := by
  obtain ⟨text, position, piece⟩ := s
  cases piece with
  | heredocLines bodies =>
    show ((bodies.map (·.down n)).filter _).map _ = ((bodies.filter _).map _).map _
    rw [List.filter_map, List.map_map, List.map_map]
    rfl
  | literal closed => cases closed <;> rfl
  | _ => rfl

theorem flatMap_bodies_down (n : Nat) (ss : List Segment) :
    (ss.map (·.down n)).flatMap (·.bodies) = (ss.flatMap (·.bodies)).map (·.down n) := by
  rw [List.flatMap_map, List.map_flatMap]
  simp only [bodies_down]

theorem flatMap_notices_down (n : Nat) (ss : List Segment) :
    (ss.map (·.down n)).flatMap (·.notices) = (ss.flatMap (·.notices)).map (·.down n) := by
  rw [List.flatMap_map, List.map_flatMap]
  simp only [notices_down]

theorem tokens_down (n : Nat) (bodies : List Heredoc.Body) (ss : List Segment) :
    tokens (bodies.map (·.down n)) (ss.map (·.down n)) =
      (tokens bodies ss).map (·.down n) := by
  induction ss generalizing bodies with
  | nil => rfl
  | cons s ss ih =>
    obtain ⟨text, position, piece⟩ := s
    cases piece with
    | heredoc h =>
      cases bodies with
      | nil => exact congrArg (_ :: ·) (ih [])
      | cons b bodies => exact congrArg (_ :: ·) (ih bodies)
    | token | literal => exact congrArg (_ :: ·) (ih bodies)
    | _ => exact ih bodies

end Segment

/-! ### Contexts -/

namespace Context

/-- One context is another some lines further down: the last tokens may differ, but the tests that
are put to them do not tell them apart. -/
structure Below (n : Nat) (below ctx : Context) : Prop where
  position : below.position = ctx.position.down n
  afterArrow : below.afterArrow = ctx.afterArrow
  afterValue : below.afterValue = ctx.afterValue
  expectsPattern : below.expectsPattern = ctx.expectsPattern
  announced : below.announced = ctx.announced.map (·.down n)
  due : below.due = ctx.due.map (·.down n)

/-- A test that does not ask where a token stands tells the same of the last token further down,
if it did before. -/
theorem test_last_after {α : Type} {n : Nat} {below ctx : Context} (test : Option Token → α)
    (htest : ∀ t : Token, test (some (t.down n)) = test (some t))
    (hlast : test below.last = test ctx.last) (s : Segment) :
    test (below.after (s.down n)).last = test (ctx.after s).last := by
  unfold after
  rw [Segment.token?_down]
  cases s.token? with
  | none => exact hlast
  | some t => exact htest t

variable {n : Nat} {below ctx : Context} (h : below.Below n ctx)

include h

theorem Below.cutWord (s : List Char) :
    below.cutWord s = ((ctx.cutWord s).1.down n, (ctx.cutWord s).2) := by
  unfold Context.cutWord
  rw [h.afterArrow]
  dsimp only
  split
  · rfl
  split
  · split <;> rfl
  · rfl

theorem Below.cutSymbol (c : Char) (cs : List Char) :
    below.cutSymbol c cs = ((ctx.cutSymbol c cs).1.down n, (ctx.cutSymbol c cs).2) := by
  unfold Context.cutSymbol
  rw [h.position, Heredoc.marker?_down]
  cases Heredoc.marker? ctx.position (c :: cs) with
  | some m => rfl
  | none => cases Symbol.ofPrefix? (c :: cs) <;> rfl

/-- The next segment is the same further down. -/
theorem Below.cut (c : Char) (cs : List Char) :
    below.cut c cs = ((ctx.cut c cs).1.down n, (ctx.cut c cs).2) := by
  have hcolumn : below.position.column = ctx.position.column := by
    rw [h.position]
    rfl
  have hdue : below.due ≠ [] ↔ ctx.due ≠ [] := by
    rw [h.due]
    simp
  -- to move a choice down is to move down what is chosen
  have hchoice : ∀ (q : Prop) [Decidable q] (a b : Piece × Text.Cut),
      ((if q then a else b).1.down n, (if q then a else b).2) =
        if q then (a.1.down n, a.2) else (b.1.down n, b.2) := by
    intro q _ a b
    split <;> rfl
  unfold Context.cut
  simp only [hdue, hchoice]
  rw [h.due, hcolumn, h.afterValue, h.expectsPattern, h.cutWord, h.cutSymbol,
    Heredoc.bodies_down]
  rfl

theorem Below.segment (c : Char) (cs : List Char) :
    below.segment (below.cut c cs) = (ctx.segment (ctx.cut c cs)).down n := by
  rw [h.cut]
  unfold Context.segment
  rw [h.position]
  rfl

theorem Below.after (s : Segment) : (below.after (s.down n)).Below n (ctx.after s) where
  position := by
    simp only [Context.after]
    rw [h.position]
    exact Position.afterAll_down n _ s.text
  afterArrow :=
    test_last_after (fun last => { ctx with last }.afterArrow) (fun _ => rfl) h.afterArrow s
  afterValue :=
    test_last_after (fun last => { ctx with last }.afterValue) (fun _ => rfl) h.afterValue s
  expectsPattern :=
    test_last_after (fun last => { ctx with last }.expectsPattern) (fun _ => rfl)
      h.expectsPattern s
  announced := by
    obtain ⟨text, position, piece⟩ := s
    cases piece with
    | heredoc heredoc =>
      show below.announced ++ [heredoc.down n] = (ctx.announced ++ [heredoc]).map (·.down n)
      rw [h.announced, List.map_append]
      rfl
    | blank =>
      show (if text = ['\n'] then [] else below.announced) =
        (if text = ['\n'] then [] else ctx.announced).map (·.down n)
      split
      · rfl
      · exact h.announced
    | _ => exact h.announced
  due := by
    obtain ⟨text, position, piece⟩ := s
    cases piece with
    | heredocLines bodies => rfl
    | blank =>
      show (if text = ['\n'] then below.announced else below.due) =
        (if text = ['\n'] then ctx.announced else ctx.due).map (·.down n)
      split
      · exact h.announced
      · exact h.due
    | _ => exact h.due

/-- **A text further down.**  It has the same segments, and ends in the same context. -/
theorem Below.segments (cs : List Char) :
    (below.segments cs).1 = (ctx.segments cs).1.map (·.down n) ∧
      (below.segments cs).2.Below n (ctx.segments cs).2 := by
  fun_induction Context.segments ctx cs generalizing below with
  | case1 ctx => exact ⟨by rw [Context.segments]; rfl, by rwa [Context.segments]⟩
  | case2 ctx c cs next s =>
    rename_i hend
    rw [Context.segments]
    dsimp only
    rw [h.segment, h.cut, if_pos (Piece.down_eq_endMarker_iff.mpr hend)]
    exact ⟨rfl, h.after s⟩
  | case3 ctx c cs next s =>
    rename_i hend more ih
    obtain ⟨hmore, hlast⟩ := ih (h.after s)
    rw [Context.segments]
    dsimp only
    rw [h.segment, h.cut, if_neg (mt Piece.down_eq_endMarker_iff.mp hend)]
    exact ⟨congrArg (_ :: ·) hmore, hlast⟩

end Context

end WordRole
