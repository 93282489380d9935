import Mathlib.Data.List.Forall2
import WordRole.Proofs.Lexing.Pieces

/-!
# Lossless segmentation

The segments of a source, and what follows an end marker, make up the source, and all that is known
of its tokens and of the characters that start none is read off the segments (`lex_segmentation`):

* `Context.segments_stand`: every segment stands where the text before it ends;
* `Segment.forall₂_tokens`: the tokens are the segments that give one, in order;
* `Segment.forall₂_strays`: the notices of stray characters are the stray segments, in order.
-/

namespace WordRole

theorem Position.afterAll_start (cs : List Char) : start.afterAll cs =
    ⟨1 + cs.count '\n', 1 + (cs.reverse.takeWhile (· != '\n')).length⟩ := by
  have h : ∀ ds : List Char, start.afterAll ds.reverse =
      ⟨1 + ds.reverse.count '\n', 1 + (ds.takeWhile (· != '\n')).length⟩ := by
    intro ds
    induction ds with
    | nil => rfl
    | cons d ds ih =>
      rw [List.reverse_cons, afterAll_append, ih]
      by_cases hd : d = '\n'
      · subst hd
        simp [Nat.add_assoc]
      · simp [after_of_ne _ hd, hd, List.count_append, Nat.add_comm]
  simpa using h cs.reverse

/-! ### The run -/

namespace Context

open Segment

/-- Every segment stands after those before it, and the text ends or is no code after the last. -/
theorem segments_stand {ctx : Context} {before : List Segment} (h : ctx.Follows before)
    (cs : List Char) :
    ∃ rest, textOf (ctx.segments cs).1 ++ rest = cs ∧
      (∀ pre s post, (ctx.segments cs).1 = pre ++ s :: post →
        s.Stands (before ++ pre) (textOf post ++ rest) ∧
        s.position = Position.start.afterAll (textOf (before ++ pre)) ∧
        (s.piece = .endMarker → post = [])) ∧
      (rest = [] ∨ ∃ pre s, (ctx.segments cs).1 = pre ++ [s] ∧ s.piece = .endMarker) ∧
      (ctx.segments cs).2.Follows (before ++ (ctx.segments cs).1) := by
  fun_induction segments ctx cs generalizing before with
  | case1 ctx => exact ⟨[], rfl, by simp, .inl rfl, by simpa using h⟩
  | case2 ctx c cs next s =>
    rename_i hend
    refine ⟨next.2.rest, ?_, ?_, .inr ⟨[], s, rfl, hend⟩, h.after c cs⟩
    · rw [textOf_cons, textOf_nil, List.append_nil]
      exact (ctx.whole_cut c cs).1
    · intro pre u post hu
      cases pre with
      | nil =>
        obtain ⟨rfl, rfl⟩ := List.cons.inj hu
        rw [List.append_nil]
        exact ⟨stands_cut h c cs, h.position, fun _ => rfl⟩
      | cons p pre => simp at hu
  | case3 ctx c cs next s =>
    rename_i hend more ih
    obtain ⟨rest, hcover, hstand, hstop, hlast⟩ := ih (h.after c cs)
    refine ⟨rest, ?_, ?_, ?_, by simpa using hlast⟩
    · rw [textOf_cons, List.append_assoc, hcover]
      exact (ctx.whole_cut c cs).1
    · intro pre u post hu
      cases pre with
      | nil =>
        obtain ⟨rfl, rfl⟩ := List.cons.inj hu
        rw [List.append_nil, hcover]
        exact ⟨stands_cut h c cs, h.position, fun he => absurd he hend⟩
      | cons p pre =>
        obtain ⟨rfl, hmore⟩ := List.cons.inj hu
        simpa using hstand pre u post hmore
    · rcases hstop with hstop | ⟨pre, u, hu, he⟩
      · exact .inl hstop
      · exact .inr ⟨s :: pre, u, congrArg (s :: ·) hu, he⟩

/-- No segment follows an end marker. -/
theorem piece_ne_endMarker {cs : List Char} {before after : List Segment} {s : Segment}
    (h : (start.segments cs).1 = before ++ s :: after) : ∀ u ∈ before, u.piece ≠ .endMarker := by
  intro u hu he
  obtain ⟨_, -, hstand, -⟩ := segments_stand follows_start cs
  obtain ⟨pre, post, rfl⟩ := List.append_of_mem hu
  have hlast := (hstand pre u (post ++ s :: after) (by rw [h]; simp)).2.2 he
  simp at hlast

end Context

/-! ### Tokens and notices -/

namespace Segment

def heredoc? (s : Segment) : Option Heredoc :=
  match s.piece with
  | .heredoc h => some h
  | _ => none

/-- whether a segment is a token; of a heredoc the marker is one -/
def isToken (s : Segment) : Bool :=
  match s.piece with
  | .token _ | .literal _ | .heredoc _ => true
  | _ => false

def isStray (s : Segment) : Bool :=
  match s.piece with
  | .stray _ => true
  | _ => false

/-- Whether a token is the one that a segment gives.  Its text is that of the segment; the marker of
a heredoc is followed by the lines of the heredoc's body, unless there is none. -/
def Gives (bodies : List Heredoc.Body) (left : List Heredoc) (s : Segment) (t : Token) : Prop :=
  t.position = s.position ∧
    match s.piece with
    | .token kind => t.kind = kind ∧ t.text.toList = s.text
    | .literal _ => t.kind = .stringLiteral ∧ t.text.toList = s.text
    | .heredoc h => t.kind = .stringLiteral ∧
      ((∃ b ∈ bodies, b.heredoc = h ∧ t.text.toList =
          s.text ++ b.lines.flatMap fun l => '\n' :: l.takeWhile (· != '\n')) ∨
        (h ∈ left ∧ t.text.toList = s.text))
    | _ => False

/-- Whether a notice is the one of a stray character, which stands at its place. -/
def Reports (s : Segment) (n : Notice) : Prop :=
  ∃ c, s.piece = .stray c ∧
    n = { code := "B0604"
          severity := .warning
          message := s!"unexpected character '{c}'"
          position := s.position }

/-- Bodies are read in the order in which their heredocs are announced. -/
theorem heredocs_eq {ss : List Segment} {hs : List Heredoc}
    (h : ∀ pre s post, ss = pre ++ s :: post → ∀ bodies, s.piece = .heredocLines bodies →
      bodies.map (·.heredoc) = pre.foldl announce hs) :
    hs ++ ss.filterMap (·.heredoc?) =
      (ss.flatMap (·.bodies)).map (·.heredoc) ++ ss.foldl announce hs := by
  induction ss generalizing hs with
  | nil => simp
  | cons s ss ih =>
    have hlater : ∀ pre u post, ss = pre ++ u :: post → ∀ bodies, u.piece = .heredocLines bodies →
        bodies.map (·.heredoc) = pre.foldl announce (announce hs s) :=
      fun pre u post hu => h (s :: pre) u post (congrArg (s :: ·) hu)
    have ih := ih hlater
    have hs := h [] s ss rfl
    obtain ⟨text, position, piece⟩ := s
    cases piece with
    | heredoc h => simpa [heredoc?, bodies, announce] using ih
    | heredocLines bs => simpa [heredoc?, bodies, announce, hs bs rfl] using ih
    | _ => simpa [heredoc?, bodies, announce] using ih

theorem forall₂_tokens {all bodies : List Heredoc.Body} {left more : List Heredoc}
    {ss : List Segment} (hall : ∀ b ∈ bodies, b ∈ all) (hleft : ∀ h ∈ more, h ∈ left)
    (h : ss.filterMap (·.heredoc?) = bodies.map (·.heredoc) ++ more) :
    List.Forall₂ (Gives all left) (ss.filter (·.isToken)) (tokens bodies ss) := by
  induction ss generalizing bodies more with
  | nil => exact .nil
  | cons s ss ih =>
    obtain ⟨text, position, piece⟩ := s
    cases piece with
    | heredoc h' =>
      cases bodies with
      | nil =>
        -- no heredoc from here on is read
        cases more with
        | nil => cases h
        | cons k more =>
          obtain ⟨rfl, htail⟩ := List.cons.inj h
          refine .cons ⟨rfl, rfl, .inr ⟨hleft _ List.mem_cons_self, String.toList_ofList⟩⟩ ?_
          exact ih (by simp) (fun k hk => hleft k (List.mem_cons_of_mem _ hk)) htail
      | cons b bodies =>
        obtain ⟨hb, htail⟩ := List.cons.inj h
        refine .cons ⟨rfl, rfl, .inl ⟨b, hall b List.mem_cons_self, hb.symm, ?_⟩⟩ ?_
        · exact String.toList_ofList
        exact ih (fun b hb => hall b (List.mem_cons_of_mem _ hb)) hleft htail
    | token kind => exact .cons ⟨rfl, rfl, String.toList_ofList⟩ (ih hall hleft h)
    | literal closed => exact .cons ⟨rfl, rfl, String.toList_ofList⟩ (ih hall hleft h)
    | _ => exact ih hall hleft h

theorem filter_unterminated (hs : List Heredoc) :
    (hs.map Heredoc.unterminated).filter (·.code = "B0604") = [] := by
  refine List.filter_eq_nil_iff.mpr fun n hn => ?_
  obtain ⟨h, -, rfl⟩ := List.mem_map.mp hn
  have hc : h.unterminated.code = "B0605" := rfl
  simp [hc]

theorem forall₂_strays (ss : List Segment) :
    List.Forall₂ Reports (ss.filter (·.isStray))
      ((ss.flatMap (·.notices)).filter (·.code = "B0604")) := by
  induction ss with
  | nil => exact .nil
  | cons s ss ih =>
    rw [List.flatMap_cons, List.filter_append]
    obtain ⟨text, position, piece⟩ := s
    cases piece with
    | stray c => exact .cons ⟨c, rfl, rfl⟩ ih
    | heredocLines bodies =>
      have hf := filter_unterminated ((bodies.filter (·.closing.isNone)).map (·.heredoc))
      rw [List.map_map] at hf
      have hnone : (Segment.notices ⟨text, position, .heredocLines bodies⟩).filter
          (·.code = "B0604") = [] := hf
      rw [hnone]
      exact ih
    | literal closed => cases closed <;> exact ih
    | _ => exact ih

end Segment

/-! ### The source -/

/-- How segments and the text after them make up a source, its tokens and its notices. -/
structure Segmentation (source : List Char) (ss : List Segment) (rest : List Char) (lexed : Lexed) :
    Prop where
  whole : Segment.textOf ss ++ rest = source
  stands : ∀ before s after, ss = before ++ s :: after →
    s.Stands before (Segment.textOf after ++ rest)
  position : ∀ before s after, ss = before ++ s :: after →
    s.position = ⟨1 + (Segment.textOf before).count '\n',
      1 + ((Segment.textOf before).reverse.takeWhile (· != '\n')).length⟩
  stop : rest = [] ∨ ∃ before s, ss = before ++ [s] ∧ s.piece = .endMarker
  endMarker : ∀ before s after, ss = before ++ s :: after → s.piece = .endMarker → after = []
  tokens : List.Forall₂ (Segment.Gives (ss.flatMap (·.bodies)) (Segment.pending ss))
    (ss.filter (·.isToken)) lexed.tokens
  strays : List.Forall₂ Segment.Reports (ss.filter (·.isStray))
    (lexed.notices.filter (·.code = "B0604"))

/-- **Segmentation.**  Every source is made up of its segments and of what follows an end marker. -/
theorem lex_segmentation (content : String) :
    ∃ rest, Segmentation content.toList (Context.start.segments content.toList).1 rest
      (lex content) := by
  obtain ⟨rest, hwhole, hstand, hstop, hlast⟩ :=
    Context.segments_stand Context.follows_start content.toList
  simp only [List.nil_append] at hstand hlast
  refine ⟨rest, hwhole, fun before s after h => (hstand before s after h).1, ?_, hstop,
    fun before s after h => (hstand before s after h).2.2, ?_, ?_⟩
  · intro before s after h
    rw [(hstand before s after h).2.1, Position.afterAll_start]
  · have hread : ∀ before s after, (Context.start.segments content.toList).1 =
        before ++ s :: after → ∀ bodies, s.piece = .heredocLines bodies →
          bodies.map (·.heredoc) = before.foldl Segment.announce [] := by
      intro before s after h bodies hp
      have hs := (hstand before s after h).1
      simp only [Segment.Stands, hp] at hs
      exact hs.2.2.2.1
    have hbodies := Segment.heredocs_eq hread
    exact Segment.forall₂_tokens (fun _ hb => hb) (fun _ hh => hh) hbodies
  · simp only [lex, List.filter_append, Segment.filter_unterminated, List.append_nil]
    exact Segment.forall₂_strays _

end WordRole
