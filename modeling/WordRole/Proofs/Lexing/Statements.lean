import WordRole.Proofs.Lexing.Continuation
import WordRole.Proofs.Lexing.Moved
import WordRole.Proofs.Lexing.Words

/-!
# One statement after the other

After a line that ends with a statement, and after lines that are empty, a source begins anew: what
follows has the tokens and notices that it has on its own, further down (`lex_append`).

* `Context.Leads`: a text that leads the run from one context to another, whatever follows it;
* `Context.exists_leads_of_statement`: a source up to the semicolon that ends its last line;
* `lex_append_of_leads`: a source after which the context is that of a beginning further down.
-/

namespace WordRole

namespace Position

/-- After a newline a text goes on at the first column, as many lines down as there are newlines
before it. -/
theorem afterAll_start_of_newline {cs : List Char} (h : ∀ c ∈ cs.getLast?, c = '\n') :
    start.afterAll cs = start.down (cs.count '\n') := by
  rcases List.eq_nil_or_concat cs with rfl | ⟨ds, c, rfl⟩
  · rfl
  · rw [List.concat_eq_append] at h ⊢
    obtain rfl := h c (by simp)
    rw [afterAll_append, afterAll_cons, afterAll_nil, after_newline, line_afterAll,
      List.count_append, Nat.add_assoc]
    rfl

/-- A place tells the text before it. -/
theorem eq_of_afterAll_eq {p : Position} {cs ds es : List Char} (hcs : cs <+: es) (hds : ds <+: es)
    (h : p.afterAll cs = p.afterAll ds) : cs = ds := by
  -- the longer text would end further on
  have hlonger : ∀ {cs ds : List Char}, cs <+: ds → p.afterAll cs = p.afterAll ds → cs = ds := by
    rintro cs _ ⟨more, rfl⟩ h
    by_cases hmore : more = []
    · rw [hmore, List.append_nil]
    · have hlater := (p.afterAll cs).precedes_afterAll hmore
      rw [← afterAll_append, ← h] at hlater
      exact absurd hlater hlater.asymm
  rcases List.prefix_or_prefix_of_prefix hcs hds with hfirst | hfirst
  · exact hlonger hfirst h
  · exact (hlonger hfirst h.symm).symm

end Position

/-! ### Texts that do not depend on what follows -/

namespace Context

/-- A text leads the run over segments from one context to another, whatever follows it. -/
def Leads (ctx : Context) (cs : List Char) (ss : List Segment) (next : Context) : Prop :=
  ∀ more, ctx.segments (cs ++ more) = (ss ++ (next.segments more).1, (next.segments more).2)

theorem leads_nil (ctx : Context) : ctx.Leads [] [] ctx := fun _ => rfl

theorem Leads.append {ctx next last : Context} {cs ds : List Char} {ss us : List Segment}
    (h : ctx.Leads cs ss next) (h' : next.Leads ds us last) :
    ctx.Leads (cs ++ ds) (ss ++ us) last := by
  intro more
  rw [List.append_assoc, h, h', List.append_assoc]

theorem Leads.segments {ctx next : Context} {cs : List Char} {ss : List Segment}
    (h : ctx.Leads cs ss next) : ctx.segments cs = (ss, next) := by
  have hnil := h []
  rw [List.append_nil, Context.segments] at hnil
  rw [hnil, List.append_nil]

section NothingDue

variable (p : Position) (last : Option Token) (announced : List Heredoc)

/-- A newline makes the announced heredocs due. -/
theorem leads_newline : (mk p last announced []).Leads ['\n'] [⟨['\n'], p, .blank⟩]
    ⟨p.after '\n', last, [], announced⟩ := by
  intro more
  have hcut : (mk p last announced []).cut '\n' more = (.blank, ⟨['\n'], more⟩) := by
    unfold cut
    rw [if_neg (by simp), if_pos Text.isBlank_newline]
  rw [List.singleton_append, segments_cons (by rw [hcut]; exact nofun), hcut]
  rfl

/-- A semicolon is a token of its own. -/
theorem leads_semicolon : (mk p last announced []).Leads [';'] [⟨[';'], p, .token .punctuation⟩]
    ⟨p.after ';', some ⟨.punctuation, ";", p⟩, announced, []⟩ := by
  intro more
  have hcut : (mk p last announced []).cut ';' more = (.token .punctuation, ⟨[';'], more⟩) := by
    rw [cut_of_mark rfl (by decide), cutSymbol, Heredoc.marker?_eq_none_of_head? (by simp)]
    rfl
  rw [List.singleton_append, segments_cons (by rw [hcut]; exact nofun), hcut]
  rfl

/-- Empty lines leave nothing but the place behind. -/
theorem exists_leads_newlines {cs : List Char} (h : ∀ c ∈ cs, c = '\n') (p : Position) :
    ∃ ss, (mk p last [] []).Leads cs ss ⟨p.afterAll cs, last, [], []⟩ := by
  induction cs generalizing p with
  | nil => exact ⟨[], leads_nil _⟩
  | cons c cs ih =>
    obtain rfl := h c List.mem_cons_self
    obtain ⟨ss, hss⟩ := ih (fun d hd => h d (List.mem_cons_of_mem _ hd)) (p.after '\n')
    exact ⟨_, (leads_newline p last []).append hss⟩

end NothingDue

theorem position_afterAll (ctx : Context) (ss : List Segment) :
    (ctx.afterAll ss).position = ctx.position.afterAll (Segment.textOf ss) := by
  induction ss generalizing ctx with
  | nil => rfl
  | cons s ss ih =>
    rw [Segment.textOf_cons, Position.afterAll_append]
    exact ih (ctx.after s)

/-- A token is that of a segment after those that make up the text before it, of which none is an
end marker. -/
theorem exists_segments_of_mem_tokens {source : String} {before after : List Char} {t : Token}
    (hsource : source.toList = before ++ after) (ht : t ∈ (lex source).tokens)
    (hposition : t.position = Position.start.afterAll before) :
    ∃ pre s post, (start.segments source.toList).1 = pre ++ s :: post ∧
      Segment.textOf pre = before ∧ s.kind?.isSome = true ∧ ∀ u ∈ pre, u.piece ≠ .endMarker := by
  obtain ⟨pre, s, post, hsegments, hshows⟩ := Lexed.exists_segment_of_mem_tokens ht
  obtain ⟨-, hplace, rest, hwhole⟩ := place_of_segments hsegments
  refine ⟨pre, s, post, hsegments, ?_, by rw [hshows.kind]; rfl, piece_ne_endMarker hsegments⟩
  refine Position.eq_of_afterAll_eq (hwhole ▸ List.prefix_append _ _)
    (hsource ▸ List.prefix_append _ _) (?_ : Position.start.afterAll _ = _)
  rw [← hplace, ← hshows.position, hposition]

/-- **The end of a statement.**  A source up to a semicolon that is a token leads, with the newline
after it, to the next line, where what has been announced before is due. -/
theorem exists_leads_of_statement {source : String} {before : List Char} {t : Token}
    (hsource : source.toList = before ++ [';', '\n']) (ht : t ∈ (lex source).tokens)
    (hposition : t.position = Position.start.afterAll before) :
    ∃ ss p announced, start.Leads source.toList ss
      ⟨Position.start.afterAll source.toList, some ⟨.punctuation, ";", p⟩, [], announced⟩ := by
  obtain ⟨pre, s, post, hsegments, rfl, hkind, hend⟩ :=
    exists_segments_of_mem_tokens hsource ht hposition
  rw [hsource] at hsegments
  have hrun : ∀ more, start.segments (Segment.textOf pre ++ (';' :: '\n' :: more)) =
      (pre ++ ((start.afterAll pre).segments (';' :: '\n' :: more)).1,
        ((start.afterAll pre).segments (';' :: '\n' :: more)).2) := fun more =>
    segments_append ⟨⟨';', '\n', [], more, rfl, rfl, nofun⟩, rfl⟩ hsegments hend
  rw [hrun []] at hsegments
  have hdue : (start.afterAll pre).due = [] := by
    have hhead := (start.afterAll pre).head_segments ';' ['\n']
    rw [List.append_cancel_left hsegments] at hhead
    rw [Option.some.inj hhead] at hkind
    exact Segment.due_of_isSome_kind? hkind
  have hplace := position_afterAll start pre
  generalize start.afterAll pre = ctx at hrun hdue hplace
  obtain ⟨p, last, announced, due⟩ := ctx
  obtain rfl : due = [] := hdue
  -- the semicolon, and the newline after it
  have hstep := (leads_semicolon p last announced).append
    (leads_newline (p.after ';') (some ⟨.punctuation, ";", p⟩) announced)
  refine ⟨pre ++ [⟨[';'], p, .token .punctuation⟩, ⟨['\n'], p.after ';', .blank⟩], p, announced,
    fun more => ?_⟩
  have hnext : Position.start.afterAll source.toList = (p.after ';').after '\n' := by
    rw [hsource, Position.afterAll_append]
    exact congrArg (fun q => (q.after ';').after '\n') hplace.symm
  rw [hnext, hsource, List.append_assoc, List.append_assoc]
  exact (hrun more).trans (congrArg (fun r => (pre ++ r.1, r.2)) (hstep more))

/-- Neither after a semicolon nor at the beginning of a source is there a value or an arrow before,
and in both places a slash starts a pattern. -/
theorem below_start {last : Option Token} (n : Nat)
    (h : last = none ∨ ∃ p, last = some ⟨.punctuation, ";", p⟩) :
    (mk (Position.start.down n) last [] []).Below n start := by
  rcases h with rfl | ⟨p, rfl⟩ <;> exact ⟨rfl, rfl, rfl, rfl, rfl, rfl⟩

end Context

/-! ### Tokens -/

namespace Segment

/-- Where all heredocs that some segments announce are read by them, their tokens do not depend on
the segments after them. -/
theorem tokens_append {bodies : List Heredoc.Body} {ss : List Segment}
    (h : ss.filterMap (·.heredoc?) = bodies.map (·.heredoc)) (more : List Heredoc.Body)
    (us : List Segment) :
    tokens (bodies ++ more) (ss ++ us) = tokens bodies ss ++ tokens more us := by
  induction ss generalizing bodies with
  | nil =>
    obtain rfl := List.map_eq_nil_iff.mp h.symm
    rfl
  | cons s ss ih =>
    obtain ⟨text, position, piece⟩ := s
    cases piece with
    | heredoc k =>
      cases bodies with
      | nil => cases h
      | cons b bodies => exact congrArg (_ :: ·) (ih (List.cons.inj h).2)
    | token | literal => exact congrArg (_ :: ·) (ih h)
    | _ => exact ih h

end Segment

/-- The heredocs of a source are those whose lines are read, in order, and those that wait for them
at the end. -/
theorem Context.heredocs_segments (cs : List Char) :
    (start.segments cs).1.filterMap (·.heredoc?) =
      ((start.segments cs).1.flatMap (·.bodies)).map (·.heredoc) ++
        ((start.segments cs).2.due ++ (start.segments cs).2.announced) := by
  obtain ⟨_, -, hstand, -, hlast⟩ := segments_stand follows_start cs
  have hread : ∀ pre s post, (start.segments cs).1 = pre ++ s :: post →
      ∀ bodies, s.piece = .heredocLines bodies →
        bodies.map (·.heredoc) = pre.foldl Segment.announce [] := by
    intro pre s post h bodies hpiece
    have hs := (hstand pre s post h).1
    simp only [Segment.Stands, hpiece] at hs
    exact hs.2.2.2.1
  rw [hlast.pending]
  exact Segment.heredocs_eq hread

/-! ### Sources -/

/-- A source after which the context is that of a beginning further down. -/
theorem lex_append_of_leads {a b : String} {n : Nat} {ss : List Segment} {next : Context}
    (h : Context.start.Leads a.toList ss next) (hbelow : next.Below n .start) :
    lex (a ++ b) = ⟨(lex a).tokens ++ (lex b).tokens.map (·.down n),
      (lex a).notices ++ (lex b).notices.map (·.down n)⟩ := by
  have hheredocs := Context.heredocs_segments a.toList
  obtain ⟨hsegments, hlast⟩ := hbelow.segments b.toList
  have hdue : next.due = [] := hbelow.due
  have hannounced : next.announced = [] := hbelow.announced
  rw [h.segments, hdue, hannounced, List.append_nil, List.append_nil] at hheredocs
  unfold lex
  rw [String.toList_append, h b.toList, h.segments]
  dsimp only
  rw [hsegments, hlast.due, hlast.announced, hdue, hannounced]
  refine congrArg₂ Lexed.mk ?_ ?_
  · rw [List.flatMap_append, Segment.flatMap_bodies_down, Segment.tokens_append hheredocs,
      Segment.tokens_down]
  · rw [List.flatMap_append, Segment.flatMap_notices_down, ← List.map_append,
      Heredoc.map_unterminated_down]
    simp

/-- A source that ends with a statement: nothing that is opened in it is left open, and its last
token is the semicolon right before the newline at its end. -/
structure EndsStatement (source : String) : Prop where
  closed : ∀ n ∈ (lex source).notices, n.code ≠ "B0603" ∧ n.code ≠ "B0605"
  semicolon : ∃ before t, source.toList = before ++ [';', '\n'] ∧
    (lex source).tokens.getLast? = some t ∧ t.text = ";" ∧
    t.position = Position.start.afterAll before

/-- **One statement after the other.**  After a source that ends with a statement, and after empty
lines, a source has the tokens and the notices that it has on its own, further down by the number
of newlines before it. -/
theorem lex_append {a b : String} (h : (∀ c ∈ a.toList, c = '\n') ∨ EndsStatement a) :
    let n := a.toList.count '\n'
    lex (a ++ b) = ⟨(lex a).tokens ++ (lex b).tokens.map (·.down n),
      (lex a).notices ++ (lex b).notices.map (·.down n)⟩ := by
  rcases h with hempty | ⟨hclosed, before, t, hsource, hlast, -, hposition⟩
  · obtain ⟨ss, hleads⟩ := Context.exists_leads_newlines none hempty .start
    have hplace := Position.afterAll_start_of_newline fun c hc =>
      hempty c (List.mem_of_getLast? hc)
    rw [hplace] at hleads
    exact lex_append_of_leads hleads (Context.below_start _ (.inl rfl))
  · obtain ⟨ss, p, announced, hleads⟩ :=
      Context.exists_leads_of_statement hsource (List.mem_of_getLast? hlast) hposition
    -- a heredoc announced on the last line would be left open
    obtain rfl : announced = [] := by
      refine List.eq_nil_iff_forall_not_mem.mpr fun h hh => ?_
      refine (hclosed h.unterminated ?_).2 rfl
      unfold lex
      rw [hleads.segments]
      simp only [List.mem_append, List.append_nil]
      exact .inr (List.mem_map_of_mem hh)
    have hnewline : ∀ c ∈ a.toList.getLast?, c = '\n' := by simp [hsource]
    have hplace := Position.afterAll_start_of_newline hnewline
    rw [hplace] at hleads
    exact lex_append_of_leads hleads (Context.below_start _ (.inr ⟨p, rfl⟩))

theorem lex_append_of_heredoc :
    EndsStatement "f(<<E\nx\nE\n);\n" ∧
      lex ("f(<<E\nx\nE\n);\n" ++ "/x/;") =
        ⟨(lex "f(<<E\nx\nE\n);\n").tokens ++ (lex "/x/;").tokens.map (·.down 4),
          (lex "f(<<E\nx\nE\n);\n").notices ++ (lex "/x/;").notices.map (·.down 4)⟩ := by
  have h : EndsStatement "f(<<E\nx\nE\n);\n" :=
    ⟨by decide +kernel, "f(<<E\nx\nE\n)".toList, ⟨.punctuation, ";", ⟨4, 2⟩⟩, by decide,
      by decide +kernel, rfl, by decide⟩
  exact ⟨h, lex_append (.inr h)⟩

end WordRole
