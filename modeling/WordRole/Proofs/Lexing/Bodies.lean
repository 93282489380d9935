import Mathlib.Data.List.Induction
import WordRole.Proofs.Lexing.Grammar
import WordRole.Proofs.Lexing.Statements

/-!
# The bodies of heredocs

The lines of a heredoc are read later than its marker, after the next newline that is not part of a
token.  Whatever a source is, its heredocs and what they take are listed in the order of the markers
(`Segment.readings`), and this list tells all of their tokens and notices (`lex_heredocs`).

* `Context.segments_cut`: each segment is cut in the context after those before it;
* `Segment.Shows.isHeredoc`: what tells the marker of a heredoc from other tokens;
* `Context.exists_group`: the heredocs that wait at a newline take the lines after it;
* `Segment.forall₂_markers`: the tokens of the markers, with the lines that are taken.
-/

namespace WordRole

/-- whether a token is the marker of a heredoc, with the lines of its body if it has any -/
def Token.isHeredoc (t : Token) : Bool :=
  t.kind = .stringLiteral && ['<', '<'].isPrefixOf t.text.toList

def Heredoc.unread (h : Heredoc) : Heredoc.Body := ⟨h, [], none⟩

namespace Segment

/-- A newline in code: it is part of no token, no documentation and no lines of heredocs. -/
def IsNewline (s : Segment) : Prop := s.piece = .blank ∧ s.text = ['\n']

/-- what the heredocs among segments take, in order; those that still wait take nothing -/
def readings (ss : List Segment) : List Heredoc.Body :=
  ss.flatMap (·.bodies) ++ (pending ss).map Heredoc.unread

theorem IsNewline.pending_concat {s : Segment} (h : s.IsNewline) (ss : List Segment) :
    pending (ss ++ [s]) = pending ss := by
  rw [Segment.pending_concat]
  simp [announce, h.1]

theorem mem_readings {ss : List Segment} {b : Heredoc.Body} (h : b ∈ readings ss) :
    (∃ pre s post bodies, ss = pre ++ s :: post ∧ s.piece = .heredocLines bodies ∧ b ∈ bodies) ∨
      b = b.heredoc.unread := by
  rcases List.mem_append.mp h with h | h
  · obtain ⟨s, hs, hb⟩ := List.mem_flatMap.mp h
    obtain ⟨pre, post, rfl⟩ := List.append_of_mem hs
    obtain ⟨text, position, piece⟩ := s
    cases piece with
    | heredocLines bodies => exact .inl ⟨pre, _, post, bodies, rfl, rfl, hb⟩
    | _ => cases hb
  · obtain ⟨k, -, rfl⟩ := List.mem_map.mp h
    exact .inr rfl

theorem Stands.of_heredocLines {before : List Segment} {s : Segment} {after : List Char}
    {bodies : List Heredoc.Body} (h : s.Stands before after)
    (hpiece : s.piece = .heredocLines bodies) :
    bodies.map (·.heredoc) = pending before ∧ Holds bodies s.text after := by
  unfold Stands at h
  rw [hpiece] at h
  exact h.2.2.2

/-- Bodies take the first lines of a text, and only at its end one is left without its
terminator. -/
theorem Holds.exists_more {bodies : List Heredoc.Body} {text after : List Char}
    (h : Holds bodies text after) :
    ∃ more, Text.AreLines ((bodies.flatMap fun b => b.lines ++ b.closing.toList) ++ more)
        (text ++ after) ∧
      ∀ b ∈ bodies, b.closing = none → more = [] := by
  obtain ⟨⟨more, hlines⟩, htext, hread⟩ := h
  refine ⟨more, hlines, fun b hb hnone => ?_⟩
  have hafter := (hread b hb).2.2 hnone
  rw [hafter, List.append_nil] at hlines
  -- lines that make up no text are not there
  have hwhole := hlines.flatten
  rw [List.flatten_append, ← htext] at hwhole
  have hempty : more.flatten = [] := by simpa using hwhole
  refine List.eq_nil_iff_forall_not_mem.mpr fun l hl => ?_
  have hline : l ∈ Text.lines text :=
    Text.areLines_iff.mp hlines ▸ List.mem_append_right _ hl
  exact Text.ne_nil_of_mem_lines hline (List.flatten_eq_nil_iff.mp hempty l hl)

end Segment

open Segment

/-! ### The context of a segment -/

namespace Context

/-- Each segment is cut in the context after those before it. -/
theorem segments_cut {ctx : Context} {cs : List Char} {before : List Segment} {s : Segment}
    {after : List Segment} (h : (ctx.segments cs).1 = before ++ s :: after) :
    ∃ c ds, cs = textOf before ++ c :: ds ∧
      s = (ctx.afterAll before).segment ((ctx.afterAll before).cut c ds) := by
  induction before generalizing ctx cs with
  | nil =>
    obtain ⟨c, t, rest, rfl, hcut, hs⟩ := exists_cut_of_segments_cons h
    refine ⟨c, t ++ rest, rfl, ?_⟩
    show s = ctx.segment (ctx.cut c (t ++ rest))
    rw [hcut]
    exact hs
  | cons b before ih =>
    obtain ⟨c, t, rest, rfl, hcut, hb⟩ := exists_cut_of_segments_cons h
    generalize b.piece = piece at hcut hb
    obtain rfl := hb
    have hend : (ctx.cut c (t ++ rest)).1 ≠ .endMarker := by
      intro hend
      rw [segments, if_pos hend] at h
      simp at h
    rw [segments_cons hend, hcut] at h
    obtain ⟨d, ds, rfl, hs⟩ := ih (List.cons.inj h).2
    exact ⟨d, ds, by simp, hs⟩

/-- The heredocs that still wait after the last segment are those that no segment has read. -/
theorem pending_segments (cs : List Char) :
    (start.segments cs).2.due ++ (start.segments cs).2.announced =
      Segment.pending (start.segments cs).1 := by
  obtain ⟨_, -, -, -, hlast⟩ := segments_stand follows_start cs
  exact hlast.pending

/-- Bodies are those of the heredocs that wait, and the segment that holds them their lines. -/
theorem holds_of_segments {cs : List Char} {before after : List Segment} {s : Segment}
    {bodies : List Heredoc.Body} (h : (start.segments cs).1 = before ++ s :: after)
    (hpiece : s.piece = .heredocLines bodies) :
    bodies.map (·.heredoc) = Segment.pending before ∧ ∃ left, Holds bodies s.text left := by
  obtain ⟨_, -, hstand, -⟩ := segments_stand follows_start cs
  obtain ⟨hheredocs, hholds⟩ := (hstand before s after h).1.of_heredocLines hpiece
  exact ⟨hheredocs, _, hholds⟩

theorem afterAll_concat (ctx : Context) (ss : List Segment) (s : Segment) :
    ctx.afterAll (ss ++ [s]) = (ctx.afterAll ss).after s := by
  simp [afterAll]

section Source

variable {cs : List Char} {before after : List Segment} {s : Segment}
  (h : (start.segments cs).1 = before ++ s :: after)

include h

theorem follows_afterAll : (start.afterAll before).Follows before := by
  induction before using List.reverseRecOn generalizing s after with
  | nil => exact follows_start
  | append_singleton before u ih =>
    rw [List.append_assoc, List.singleton_append] at h
    obtain ⟨c, ds, -, hu⟩ := segments_cut h
    rw [afterAll_concat, hu]
    exact (ih h).after c ds

/-- The lines of heredocs are segments just where they are due. -/
theorem heredocLines_iff_due :
    (∃ bodies, s.piece = .heredocLines bodies) ↔ (start.afterAll before).due ≠ [] := by
  obtain ⟨c, ds, -, hs⟩ := segments_cut h
  rw [hs]
  exact heredocLines_cut_iff _ c ds

/-- What waits at a newline is due after it. -/
theorem due_after_newline (hs : s.IsNewline) :
    (start.afterAll (before ++ [s])).due = pending before := by
  have hdue : (start.afterAll before).due = [] := by
    by_contra hdue
    obtain ⟨bodies, hb⟩ := (heredocLines_iff_due h).mpr hdue
    rw [hs.1] at hb
    cases hb
  rw [afterAll_concat, ← (follows_afterAll h).pending, hdue]
  simp [Context.after, hs.1, hs.2]

/-- Lines are due after a newline only. -/
theorem exists_newline_of_due (hdue : (start.afterAll before).due ≠ []) :
    ∃ pre nl, before = pre ++ [nl] ∧ nl.IsNewline := by
  rcases List.eq_nil_or_concat before with rfl | ⟨pre, u, rfl⟩
  · exact absurd rfl hdue
  refine ⟨pre, u, List.concat_eq_append, ?_⟩
  rw [List.concat_eq_append] at h hdue
  rw [afterAll_concat] at hdue
  rw [List.append_assoc, List.singleton_append] at h
  have hlines := heredocLines_iff_due h
  unfold Context.after at hdue
  unfold IsNewline
  cases hpiece : u.piece with
  | heredocLines bodies => simp [hpiece] at hdue
  | blank =>
    by_cases htext : u.text = ['\n']
    · exact ⟨rfl, htext⟩
    · simp only [hpiece, if_neg htext] at hdue hlines
      obtain ⟨_, hb⟩ := hlines.mpr hdue
      cases hb
  | _ =>
    simp only [hpiece] at hdue hlines
    obtain ⟨_, hb⟩ := hlines.mpr hdue
    cases hb

/-- **A newline.**  The heredocs that wait at a newline take the lines after it, one group for each
and in order, and only the end of the text leaves one without its terminator. -/
theorem exists_group (hs : s.IsNewline) {rest : List Char}
    (hstands : ∀ u more, after = u :: more → u.Stands (before ++ [s]) (textOf more ++ rest))
    (hend : after = [] → rest = []) :
    ∃ bodies later more, readings (start.segments cs).1 =
        before.flatMap (·.bodies) ++ (bodies ++ later) ∧
      bodies.map (·.heredoc) = pending before ∧
      Text.AreLines ((bodies.flatMap fun b => b.lines ++ b.closing.toList) ++ more)
        (textOf after ++ rest) ∧
      ∀ b ∈ bodies, b.closing = none → more = [] := by
  have hbodies : s.bodies = [] := by simp [Segment.bodies, hs.1]
  have hsplit : readings (start.segments cs).1 = before.flatMap (·.bodies) ++
      (after.flatMap (·.bodies) ++ (pending (start.segments cs).1).map Heredoc.unread) := by
    unfold readings
    rw [h, List.flatMap_append, List.flatMap_cons, hbodies, List.nil_append, List.append_assoc]
  rw [hsplit]
  by_cases hnone : pending before = []
  · exact ⟨[], _, _, rfl, hnone.symm, Text.areLines_lines (textOf after ++ rest), by simp⟩
  cases after with
  | nil =>
    -- there are no lines
    have hpending : pending (start.segments cs).1 = pending before := by
      rw [h, hs.pending_concat]
    refine ⟨(pending before).map Heredoc.unread, [], [], ?_, ?_, ?_, by simp⟩
    · rw [hpending, List.append_nil, List.flatMap_nil, List.nil_append]
    · simp [Function.comp_def, Heredoc.unread]
    · have htaken : ((pending before).map Heredoc.unread).flatMap
          (fun b => b.lines ++ b.closing.toList) = [] := by
        simp [Heredoc.unread, List.flatMap_map]
      rw [hend rfl, htaken]
      exact .nil
  | cons u more =>
    have h' : (start.segments cs).1 = (before ++ [s]) ++ u :: more := by simp [h]
    obtain ⟨bodies, hpiece⟩ := (heredocLines_iff_due h').mpr (by rwa [due_after_newline h hs])
    obtain ⟨hheredocs, hholds⟩ := (hstands u more rfl).of_heredocLines hpiece
    obtain ⟨left, hlines, hclosed⟩ := hholds.exists_more
    have hfirst : u.bodies = bodies := by simp [Segment.bodies, hpiece]
    refine ⟨bodies, more.flatMap (·.bodies) ++ (pending (start.segments cs).1).map Heredoc.unread,
      left, ?_, hheredocs.trans (hs.pending_concat before), ?_, hclosed⟩
    · rw [List.flatMap_cons, hfirst, List.append_assoc]
    · rw [textOf_cons, List.append_assoc]
      exact hlines

end Source

end Context

/-! ### Markers -/

namespace Segment

section Cut

variable {ctx : Context} {c : Char} {cs : List Char}

/-- A string that starts with an angle bracket is the marker of a heredoc. -/
theorem exists_heredoc_of_angle
    (hkind : (ctx.segment (ctx.cut c cs)).kind? = some .stringLiteral)
    (hangle : (ctx.segment (ctx.cut c cs)).text.head? = some '<') :
    ∃ k, (ctx.segment (ctx.cut c cs)).piece = .heredoc k := by
  obtain ⟨hwhole, htaken⟩ := ctx.whole_cut c cs
  obtain rfl : c = '<' := by
    have hfirst := Text.Cut.head?_taken hwhole htaken
    exact Option.some.inj (hfirst.symm.trans hangle)
  have hdue := due_of_isSome_kind? (Option.isSome_iff_exists.mpr ⟨_, hkind⟩)
  rw [Context.cut_of_mark hdue (by decide)] at hkind ⊢
  unfold Context.cutSymbol at hkind ⊢
  cases hmarker : Heredoc.marker? ctx.position ('<' :: cs) with
  | some marker => exact ⟨marker.1, rfl⟩
  | none =>
    rw [hmarker] at hkind
    cases hsymbol : Symbol.ofPrefix? ('<' :: cs) with
    | none =>
      rw [hsymbol] at hkind
      cases hkind
    | some symbol =>
      rw [hsymbol] at hkind
      have hstring : Symbol.kind (String.ofList symbol) = .stringLiteral := Option.some.inj hkind
      rcases Symbol.kind_cases (String.ofList symbol) with h | h | h <;>
      · rw [hstring] at h
        cases h

/-- The markers of heredocs are the strings that start with two angle brackets. -/
theorem Shows.isHeredoc {t : Token} (h : (ctx.segment (ctx.cut c cs)).Shows t) :
    t.isHeredoc = (ctx.segment (ctx.cut c cs)).heredoc?.isSome := by
  by_cases hk : ∃ k, (ctx.segment (ctx.cut c cs)).piece = .heredoc k
  · obtain ⟨k, hpiece⟩ := hk
    have hkind : t.kind = .stringLiteral := by
      have hkind := h.kind
      rw [kind?, hpiece] at hkind
      exact (Option.some.inj hkind).symm
    have hangles := List.isPrefixOf_iff_prefix.mp (text_of_heredoc hpiece).1
    simp [Token.isHeredoc, hkind, heredoc?, hpiece, hangles.trans h.begins]
  · have hnone : (ctx.segment (ctx.cut c cs)).heredoc?.isSome = false := by
      unfold heredoc?
      split
      · exact absurd ⟨_, ‹_›⟩ hk
      · rfl
    rw [hnone, Bool.eq_false_iff]
    intro ht
    simp only [Token.isHeredoc, Bool.and_eq_true, decide_eq_true_eq] at ht
    obtain ⟨hkind, hangles⟩ := ht
    refine hk (exists_heredoc_of_angle (h.kind.trans (congrArg some hkind)) ?_)
    have htext : t.text.toList = (ctx.segment (ctx.cut c cs)).text := by
      refine h.text.resolve_right ?_
      rintro ⟨k, -, hpiece, -⟩
      exact hk ⟨k, hpiece⟩
    obtain ⟨more, hmore⟩ := List.isPrefixOf_iff_prefix.mp hangles
    rw [← htext, ← hmore]
    rfl

end Cut

/-- A token is the marker of a heredoc that a segment announces, with the lines of a body. -/
def Marks (ss : List Segment) (b : Heredoc.Body) (t : Token) : Prop :=
  ∃ s ∈ ss, s.piece = .heredoc b.heredoc ∧ t.position = s.position ∧
    t.text.toList = s.text ++ b.text

theorem Marks.cons {s : Segment} {ss : List Segment} {b : Heredoc.Body} {t : Token}
    (h : Marks ss b t) : Marks (s :: ss) b t := by
  obtain ⟨u, hu, h⟩ := h
  exact ⟨u, List.mem_cons_of_mem s hu, h⟩

/-- The markers among the tokens of segments, with the lines that are read for them. -/
theorem forall₂_markers {bodies : List Heredoc.Body} {left : List Heredoc} {ss : List Segment}
    (hshows : ∀ s ∈ ss, ∀ t, s.Shows t → t.isHeredoc = s.heredoc?.isSome)
    (h : ss.filterMap (·.heredoc?) = bodies.map (·.heredoc) ++ left) :
    List.Forall₂ (Marks ss) (bodies ++ left.map Heredoc.unread)
      ((tokens bodies ss).filter (·.isHeredoc)) := by
  induction ss generalizing bodies left with
  | nil =>
    obtain ⟨hbodies, rfl⟩ := List.append_eq_nil_iff.mp h.symm
    obtain rfl := List.map_eq_nil_iff.mp hbodies
    exact .nil
  | cons s ss ih =>
    have hs := hshows s List.mem_cons_self
    have hmore : ∀ (bs : List Heredoc.Body) (hs : List Heredoc),
        ss.filterMap (·.heredoc?) = bs.map (·.heredoc) ++ hs →
        List.Forall₂ (Marks (s :: ss)) (bs ++ hs.map Heredoc.unread)
          ((tokens bs ss).filter (·.isHeredoc)) := fun _ _ h =>
      (ih (fun u hu => hshows u (List.mem_cons_of_mem s hu)) h).imp fun _ _ => Marks.cons
    obtain ⟨text, position, piece⟩ := s
    -- no token of another kind of segments is a marker
    have hplain : ∀ kind, kind? ⟨text, position, piece⟩ = some kind →
        heredoc? ⟨text, position, piece⟩ = none → ∀ ts : List Token,
        (⟨kind, String.ofList text, position⟩ :: ts).filter (·.isHeredoc) =
          ts.filter (·.isHeredoc) := by
      intro kind hkind hnone ts
      have ht := hs ⟨kind, String.ofList text, position⟩ ⟨hkind, rfl, .inl String.toList_ofList⟩
      rw [hnone] at ht
      exact List.filter_cons_of_neg (Bool.eq_false_iff.mp ht)
    cases piece with
    | heredoc k =>
      cases bodies with
      | cons b bodies =>
        obtain ⟨hb, htail⟩ := List.cons.inj h
        have ht := hs ⟨.stringLiteral, String.ofList (text ++ b.text), position⟩
          ⟨rfl, rfl, .inr ⟨k, b, rfl, by simp⟩⟩
        have htokens : tokens (b :: bodies) (⟨text, position, .heredoc k⟩ :: ss) =
            ⟨.stringLiteral, String.ofList (text ++ b.text), position⟩ :: tokens bodies ss := rfl
        rw [htokens, List.filter_cons_of_pos ht]
        refine .cons ?_ (hmore bodies left htail)
        exact ⟨_, List.mem_cons_self, congrArg Piece.heredoc hb, rfl, by simp⟩
      | nil =>
        cases left with
        | nil => cases h
        | cons b left =>
          obtain ⟨hb, htail⟩ := List.cons.inj h
          have ht := hs ⟨.stringLiteral, String.ofList text, position⟩ ⟨rfl, rfl, .inl (by simp)⟩
          have htokens : tokens [] (⟨text, position, .heredoc k⟩ :: ss) =
              ⟨.stringLiteral, String.ofList text, position⟩ :: tokens [] ss := rfl
          rw [htokens, List.filter_cons_of_pos ht]
          refine .cons ?_ (hmore [] left htail)
          exact ⟨_, List.mem_cons_self, congrArg Piece.heredoc hb, rfl, by
            simp [Heredoc.unread, Heredoc.Body.text]⟩
    | token kind =>
      show List.Forall₂ _ _ ((⟨kind, String.ofList text, position⟩ :: tokens bodies ss).filter _)
      rw [hplain kind rfl rfl]
      exact hmore bodies left h
    | literal closed =>
      show List.Forall₂ _ _
        ((⟨.stringLiteral, String.ofList text, position⟩ :: tokens bodies ss).filter _)
      rw [hplain .stringLiteral rfl rfl]
      exact hmore bodies left h
    | _ => exact hmore bodies left h

/-! ### Notices -/

/-- The notices of heredocs without their terminators, in the order of the markers. -/
theorem filter_unterminated_eq (ss : List Segment) :
    (ss.flatMap (·.notices)).filter (·.code = "B0605") =
      ((ss.flatMap (·.bodies)).filter (·.closing.isNone)).map (·.heredoc.unterminated) := by
  induction ss with
  | nil => rfl
  | cons s ss ih =>
    rw [List.flatMap_cons, List.flatMap_cons, List.filter_append, List.filter_append,
      List.map_append, ih]
    congr 1
    obtain ⟨text, position, piece⟩ := s
    cases piece with
    | heredocLines bodies =>
      refine List.filter_eq_self.mpr fun n hn => ?_
      obtain ⟨b, -, rfl⟩ := List.mem_map.mp hn
      rfl
    | literal closed => cases closed <;> rfl
    | _ => rfl

end Segment

theorem Lexed.filter_unterminated (content : String) :
    (lex content).notices.filter (·.code = "B0605") =
      ((readings (Context.start.segments content.toList).1).filter (·.closing.isNone)).map
        (·.heredoc.unterminated) := by
  have hwaiting : ∀ hs : List Heredoc, (hs.map Heredoc.unterminated).filter (·.code = "B0605") =
      ((hs.map Heredoc.unread).filter (·.closing.isNone)).map (·.heredoc.unterminated) := by
    intro hs
    induction hs with
    | nil => rfl
    | cons h hs ih => exact congrArg (h.unterminated :: ·) ih
  simp only [lex, readings, List.filter_append, List.map_append, filter_unterminated_eq,
    ← Context.pending_segments, hwaiting]

/-! ### Sources -/

theorem Heredoc.position_of_marker? {p : Position} {s : List Char} {h : Heredoc} {cut : Text.Cut}
    (hm : marker? p s = some (h, cut)) : h.position = p := by
  unfold marker? at hm
  split at hm
  · obtain ⟨_, -, he⟩ := Option.map_eq_some_iff.mp hm
    obtain ⟨rfl, -⟩ := Prod.mk.inj he
    rfl
  · obtain ⟨_, -, he⟩ := Option.map_eq_some_iff.mp hm
    obtain ⟨rfl, -⟩ := Prod.mk.inj he
    rfl
  · cases hm

namespace Heredoc.Body

/-- A token is the marker of a heredoc where it stands in a source.  In its text the marker is
followed by the lines of the body, each after a newline and without its own. -/
structure IsOf (b : Body) (source : List Char) (t : Token) : Prop where
  position : t.position = b.heredoc.position
  marker : ∃ before marker after, source = before ++ (marker ++ after) ∧
    t.position = ⟨1 + before.count '\n', 1 + (before.reverse.takeWhile (· != '\n')).length⟩ ∧
    (∃ quote tag, WritesTag quote b.heredoc.terminator tag ∧
      marker = ['<', '<'] ++ (if b.heredoc.indented then ['~'] else []) ++ tag) ∧
    Heredoc.marker? t.position (marker ++ after) = some (b.heredoc, ⟨marker, after⟩) ∧
    t.text.toList = marker ++ b.lines.flatMap fun l => '\n' :: l.takeWhile (· != '\n')

theorem isOf_of_marks {source : List Char} {b : Body} {t : Token}
    (h : Marks (Context.start.segments source).1 b t) : b.IsOf source t := by
  obtain ⟨s, hs, hpiece, hposition, htext⟩ := h
  obtain ⟨before, after, hsplit⟩ := List.append_of_mem hs
  obtain ⟨-, hplace, -⟩ := Context.place_of_segments hsplit
  obtain ⟨c, ds, hsource, rfl⟩ := Context.segments_cut hsplit
  generalize Context.start.afterAll before = there at hpiece hposition htext hplace
  have hmarker := Context.marker?_of_cut hpiece
  have hwhole : (there.cut c ds).2.taken ++ (there.cut c ds).2.rest = c :: ds :=
    (there.whole_cut c ds).1
  refine ⟨?_, textOf before, (there.cut c ds).2.taken, (there.cut c ds).2.rest, ?_, ?_,
    exists_of_marker? hmarker, ?_, htext⟩
  · exact hposition.trans (position_of_marker? hmarker).symm
  · rw [hwhole]
    exact hsource
  · rw [hposition, hplace, Position.afterAll_start]
  · rw [hwhole, hposition]
    exact hmarker

theorem filter_position {l : List Body} {b : Body}
    (h : l.Pairwise fun b c => b.heredoc.position.Precedes c.heredoc.position) (hb : b ∈ l) :
    l.filter (fun c => c.heredoc.position = b.heredoc.position) = [b] := by
  have hne : l.Pairwise fun b c => b.heredoc.position ≠ c.heredoc.position := h.imp fun hbc he => by
    rw [he] at hbc
    exact hbc.asymm hbc
  obtain ⟨before, after, rfl⟩ := List.append_of_mem hb
  obtain ⟨-, hafter, hbefore⟩ := List.pairwise_append.mp hne
  have hnone : before.filter (fun c => c.heredoc.position = b.heredoc.position) = [] :=
    List.filter_eq_nil_iff.mpr fun c hc => by simpa using hbefore c hc b List.mem_cons_self
  have hrest : after.filter (fun c => c.heredoc.position = b.heredoc.position) = [] :=
    List.filter_eq_nil_iff.mpr fun c hc => by
      simpa using ((List.pairwise_cons.mp hafter).1 c hc).symm
  rw [List.filter_append, hnone, List.filter_cons_of_pos (by simp), hrest, List.nil_append]

end Heredoc.Body

/-- The bodies that segments hold are read up to their terminators. -/
theorem closes_of_mem_readings {source : List Char} {b : Heredoc.Body}
    (h : b ∈ readings (Context.start.segments source).1) :
    (∀ l ∈ b.lines, ¬b.heredoc.Ends l) ∧ ∀ l ∈ b.closing, b.heredoc.Ends l := by
  rcases mem_readings h with ⟨before, s, after, bodies, hsplit, hpiece, hb⟩ | hunread
  · obtain ⟨-, _, -, -, hread⟩ := Context.holds_of_segments hsplit hpiece
    exact ⟨(hread b hb).1, (hread b hb).2.1⟩
  · rw [hunread]
    simp [Heredoc.unread]

/-- Lines are taken after a newline, by a heredoc that waits there. -/
theorem exists_newline_of_mem_readings {source : List Char} {b : Heredoc.Body}
    (h : b ∈ readings (Context.start.segments source).1)
    (htaken : b.lines ++ b.closing.toList ≠ []) :
    ∃ before nl after, (Context.start.segments source).1 = before ++ nl :: after ∧
      nl.IsNewline ∧ b.heredoc ∈ pending before := by
  rcases mem_readings h with ⟨before, s, after, bodies, hsplit, hpiece, hb⟩ | hunread
  · have hdue := (Context.heredocLines_iff_due hsplit).mp ⟨bodies, hpiece⟩
    obtain ⟨pre, nl, rfl, hnl⟩ := Context.exists_newline_of_due hsplit hdue
    obtain ⟨hheredocs, -⟩ := Context.holds_of_segments hsplit hpiece
    rw [hnl.pending_concat] at hheredocs
    refine ⟨pre, nl, s :: after, by simp [hsplit], hnl, ?_⟩
    rw [← hheredocs]
    exact List.mem_map_of_mem hb
  · rw [hunread] at htaken
    exact absurd rfl htaken

/-- After a newline the heredocs that wait there take the lines of the text that follows. -/
theorem exists_group_of_newline {source : List Char} {before after : List Segment} {nl : Segment}
    (hsplit : (Context.start.segments source).1 = before ++ nl :: after) (hnl : nl.IsNewline) :
    ∃ following bodies later more, source = textOf before ++ '\n' :: following ∧
      readings (Context.start.segments source).1 =
        before.flatMap (·.bodies) ++ (bodies ++ later) ∧
      bodies.map (·.heredoc) = pending before ∧
      Text.AreLines ((bodies.flatMap fun b => b.lines ++ b.closing.toList) ++ more) following ∧
      ∀ b ∈ bodies, b.closing = none → more = [] := by
  obtain ⟨rest, hwhole, hstand, hstop, -⟩ := Context.segments_stand Context.follows_start source
  simp only [List.nil_append] at hstand
  -- after the last segment there is text only behind an end marker
  have hend : after = [] → rest = [] := by
    rintro rfl
    refine hstop.resolve_right ?_
    rintro ⟨pre, s, hs, hend⟩
    rw [hsplit] at hs
    obtain rfl := List.singleton_inj.mp (List.append_inj' hs rfl).2
    rw [hnl.1] at hend
    cases hend
  obtain ⟨bodies, later, more, hgroup⟩ := Context.exists_group hsplit hnl
    (fun u us hu => (hstand (before ++ [nl]) u us (by simp [hsplit, hu])).1) hend
  refine ⟨textOf after ++ rest, bodies, later, more, ?_, hgroup⟩
  rw [← hwhole, hsplit]
  simp [hnl.2]

namespace Lexed

/-- The tokens of the markers are those of the readings, in order. -/
theorem forall₂_isOf (content : String) :
    List.Forall₂ (Heredoc.Body.IsOf · content.toList ·)
      (readings (Context.start.segments content.toList).1)
      ((lex content).tokens.filter (·.isHeredoc)) := by
  refine (forall₂_markers (fun s hs t ht => ?_) ?_).imp fun _ _ => Heredoc.Body.isOf_of_marks
  · obtain ⟨before, after, hsplit⟩ := List.append_of_mem hs
    obtain ⟨c, ds, -, rfl⟩ := Context.segments_cut hsplit
    exact ht.isHeredoc
  · rw [← Context.pending_segments]
    exact Context.heredocs_segments content.toList

theorem pairwise_readings (content : String) :
    (readings (Context.start.segments content.toList).1).Pairwise
      fun b c => b.heredoc.position.Precedes c.heredoc.position := by
  have hpositions : (readings (Context.start.segments content.toList).1).map
      (·.heredoc.position) = ((lex content).tokens.filter (·.isHeredoc)).map (·.position) :=
    map_eq_map_of_forall₂ ((forall₂_isOf content).imp fun _ _ h => h.position.symm)
  rw [← List.pairwise_map, hpositions, List.pairwise_map]
  exact (pairwise_tokens content).filter _

/-- At the marker of a heredoc there is one notice, if its terminator is not found. -/
theorem notices_at_marker {content : String} {b : Heredoc.Body}
    (hb : b ∈ readings (Context.start.segments content.toList).1) :
    (lex content).notices.filter
        (fun n => n.code = "B0605" ∧ n.position = b.heredoc.position) =
      if b.closing.isSome then []
      else
        [{ code := "B0605"
           severity := .warning
           message :=
            s!"heredoc terminator '{String.ofList b.heredoc.terminator}' never found"
           position := b.heredoc.position }] := by
  have hboth : (lex content).notices.filter
        (fun n => n.code = "B0605" ∧ n.position = b.heredoc.position) =
      ((lex content).notices.filter (·.code = "B0605")).filter
        (·.position = b.heredoc.position) := by
    rw [List.filter_filter]
    simp [Bool.and_comm]
  have hplace : ((fun n : Notice => decide (n.position = b.heredoc.position)) ∘
      fun c : Heredoc.Body => c.heredoc.unterminated) =
        fun c => decide (c.heredoc.position = b.heredoc.position) := rfl
  rw [hboth, filter_unterminated, List.filter_map, hplace, List.filter_comm,
    Heredoc.Body.filter_position (pairwise_readings content) hb]
  cases hclosing : b.closing with
  | none => simp [hclosing, Heredoc.unterminated, Notice.unterminatedHeredoc]
  | some l => simp [hclosing]

end Lexed

/-- **Heredocs.**  What the heredocs of a source take, where `ss` are the segments of the source,
and how the tokens and the notices tell of it. -/
structure HeredocsRead (source : List Char) (ss : List Segment) (lexed : Lexed) : Prop where
  /-- the tokens of the markers, with the lines of the bodies -/
  tokens : List.Forall₂ (Heredoc.Body.IsOf · source ·) (readings ss)
    (lexed.tokens.filter (·.isHeredoc))
  lines : ∀ b ∈ readings ss, ∀ l ∈ b.lines, ¬b.heredoc.Ends l
  closing : ∀ b ∈ readings ss, ∀ l ∈ b.closing, b.heredoc.Ends l
  /-- the heredocs that wait at a newline take the lines after it, one group after the other, and
  no terminator is missed before the end of the text -/
  groups : ∀ before nl after, ss = before ++ nl :: after → nl.IsNewline →
    ∃ following bodies later more, source = textOf before ++ '\n' :: following ∧
      readings ss = before.flatMap (·.bodies) ++ (bodies ++ later) ∧
      bodies.map (·.heredoc) = pending before ∧
      Text.AreLines ((bodies.flatMap fun b => b.lines ++ b.closing.toList) ++ more) following ∧
      ∀ b ∈ bodies, b.closing = none → more = []
  /-- no line is taken elsewhere -/
  taken : ∀ b ∈ readings ss, b.lines ++ b.closing.toList ≠ [] →
    ∃ before nl after, ss = before ++ nl :: after ∧ nl.IsNewline ∧ b.heredoc ∈ pending before
  /-- there is a notice at a marker just where its terminator is not found -/
  notices : ∀ b ∈ readings ss,
    lexed.notices.filter (fun n => n.code = "B0605" ∧ n.position = b.heredoc.position) =
      if b.closing.isSome then []
      else
        [{ code := "B0605"
           severity := .warning
           message :=
            s!"heredoc terminator '{String.ofList b.heredoc.terminator}' never found"
           position := b.heredoc.position }]
  noOther : ∀ n ∈ lexed.notices, n.code = "B0605" → ∃ b ∈ readings ss,
    n.position = b.heredoc.position

/-- **Heredocs.**  In every source, the markers that are tokens take the lines after the next
newline that is not part of a token, up to their terminators, and each of them either finds its
terminator or has one notice. -/
theorem lex_heredocs (content : String) :
    HeredocsRead content.toList (Context.start.segments content.toList).1 (lex content) where
  tokens := Lexed.forall₂_isOf content
  lines _ hb := (closes_of_mem_readings hb).1
  closing _ hb := (closes_of_mem_readings hb).2
  groups _ _ _ hsplit hnl := exists_group_of_newline hsplit hnl
  taken _ hb htaken := exists_newline_of_mem_readings hb htaken
  notices _ hb := Lexed.notices_at_marker hb
  noOther n hn hcode := by
    have hmem : n ∈ (lex content).notices.filter (·.code = "B0605") :=
      List.mem_filter.mpr ⟨hn, decide_eq_true hcode⟩
    rw [Lexed.filter_unterminated] at hmem
    obtain ⟨b, hb, rfl⟩ := List.mem_map.mp hmem
    exact ⟨b, (List.mem_filter.mp hb).1, rfl⟩

example : (lex "f(<<A, <<~B);\nx\nA\n y\n B\n").tokens.filter (·.isHeredoc) =
    [⟨.stringLiteral, "<<A\nx", ⟨1, 3⟩⟩, ⟨.stringLiteral, "<<~B\n y", ⟨1, 8⟩⟩] := by
  decide +kernel

end WordRole
