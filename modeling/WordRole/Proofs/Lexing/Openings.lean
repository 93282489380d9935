import WordRole.Proofs.Lexing.Bodies

/-!
# What opens a literal

A string literal is opened by a quote, a quote word, a slash or the marker of a heredoc.  The token
does not remember by which of them, but its text tells whether the literal is one in which variables
are replaced (`Lexed.interpolates_eq_of_opens`).

* `Context.exists_opens`: every string literal that is cut has an opening;
* `Context.Opens.interpolates`: what a text that starts with the literal tells of its opening.
-/

namespace WordRole

open Text (Cut)
open Lexeme

/-! ### Markers of heredocs -/

namespace Heredoc

/-- A tag starts with a quote or with the name. -/
theorem WritesTag.exists_cons {quote : Option Char} {tag text : List Char}
    (h : WritesTag quote tag text) : ∃ c cs, text = c :: cs ∧ c ≠ '~' ∧
      ((c = '"' || isNameStart c) = (quote = none || quote = some '"')) := by
  cases h with
  | @bare c cs hc =>
    refine ⟨c, cs, rfl, ?_, by simp [hc]⟩
    rintro rfl
    revert hc
    decide
  | @quoted quote tag hquote =>
    refine ⟨quote, tag ++ [quote], rfl, ?_⟩
    rcases hquote with rfl | rfl <;> decide

theorem WritesTag.unique {quote quote' : Option Char} {tag tag' text : List Char}
    (h : WritesTag quote tag text) (h' : WritesTag quote' tag' text) : quote = quote' := by
  -- a quote starts no name
  have hstart : ∀ {c : Char}, c = '"' ∨ c = '\'' → isNameStart c = true → False := by
    rintro _ (rfl | rfl) <;> decide
  generalize htext : text = text' at h'
  cases h with
  | bare hc =>
    cases h' with
    | bare => rfl
    | quoted _ hquote =>
      obtain ⟨rfl, -⟩ := List.cons.inj htext
      exact (hstart hquote hc).elim
  | quoted _ hquote =>
    cases h' with
    | bare hc =>
      obtain ⟨rfl, -⟩ := List.cons.inj htext
      exact (hstart hquote hc).elim
    | quoted => exact congrArg some (List.cons.inj htext).1

end Heredoc

/-! ### Openings -/

/-- What a string literal is opened by. -/
inductive Opening where
  | quote (delimiter : Char)
  | word (word : String)
  | slash
  /-- with the quotes of the tag, if it has any -/
  | heredoc (indented : Bool) (quote : Option Char)
deriving DecidableEq, Repr

/-- Whether variables are replaced in a literal: between double quotes, after `qq`, and in a heredoc
with a bare or a double-quoted tag. -/
def Opening.interpolates : Opening → Bool
  | .quote delimiter => delimiter = '"'
  | .word w => w = "qq"
  | .slash => false
  | .heredoc _ mark => mark = none || mark = some '"'

namespace Context

/-- What opens the literal that is cut next. -/
inductive Opens (ctx : Context) (c : Char) (cs : List Char) : Opening → Prop
  | quote (hc : c ∈ ['"', '\'', '\x60'])
    (hcut : ctx.cut c cs = (.literal (body c cs).closed, (body c cs).cut.cons c)) :
    Opens ctx c cs (.quote c)
  | word {word : String} {rest : List Char} {literal : Delimited}
    (hword : word ∈ ["q", "qq", "qw", "qr", "m", "s", "tr", "y"])
    (hname : qualifiedName (c :: cs) = ⟨word.toList, rest⟩)
    (hliteral : quoted? word rest = some literal)
    (hcut : ctx.cut c cs = (.literal literal.closed, literal.cut.after word.toList)) :
    Opens ctx c cs (.word word)
  | slash (hc : c = '/') (hcut : ctx.cut c cs = cutPattern cs) : Opens ctx c cs .slash
  | heredoc {h : Heredoc} {quote : Option Char} {tag rest : List Char}
    (htag : Heredoc.WritesTag quote h.terminator tag)
    (hcut : ctx.cut c cs =
      (.heredoc h, ⟨['<', '<'] ++ (if h.indented then ['~'] else []) ++ tag, rest⟩)) :
    Opens ctx c cs (.heredoc h.indented quote)

section Cut

variable {ctx : Context} {c : Char} {cs : List Char}

theorem exists_opens_of_cutWord (hcut : ctx.cut c cs = ctx.cutWord (c :: cs))
    (h : (ctx.segment (ctx.cut c cs)).kind? = some .stringLiteral) : ∃ o, ctx.Opens c cs o := by
  obtain ⟨name, rest, hname⟩ : ∃ name rest, qualifiedName (c :: cs) = ⟨name, rest⟩ := ⟨_, _, rfl⟩
  rw [hcut] at h
  unfold cutWord at hcut h
  rw [hname] at hcut h
  dsimp only at hcut h
  by_cases hend : Vocabulary.endMarkers.contains (String.ofList name) = true
  · rw [if_pos hend] at h
    cases h
  rw [if_neg hend] at hcut h
  by_cases hquote : (!ctx.afterArrow && Vocabulary.quoteWords.contains (String.ofList name)) = true
  · rw [if_pos hquote] at hcut h
    cases hliteral : quoted? (String.ofList name) rest with
    | none =>
      rw [hliteral] at h
      cases h
    | some literal =>
      rw [hliteral] at hcut
      have hword := List.contains_iff_mem.mp ((Bool.and_eq_true _ _).mp hquote).2
      exact ⟨_, .word hword (by rw [hname, String.toList_ofList]) hliteral
        (by rw [hcut, String.toList_ofList])⟩
  · rw [if_neg hquote] at h
    cases h

theorem exists_opens_of_cutSymbol (hcut : ctx.cut c cs = ctx.cutSymbol c cs)
    (h : (ctx.segment (ctx.cut c cs)).kind? = some .stringLiteral) : ∃ o, ctx.Opens c cs o := by
  rw [hcut] at h
  unfold cutSymbol at hcut h
  cases hmarker : Heredoc.marker? ctx.position (c :: cs) with
  | some marker =>
    obtain ⟨heredoc, cut⟩ := marker
    rw [hmarker] at hcut
    obtain ⟨quote, tag, htag, htaken⟩ := Heredoc.exists_of_marker? hmarker
    exact ⟨_, .heredoc htag (hcut.trans (by rw [← htaken]))⟩
  | none =>
    rw [hmarker] at h
    cases hsymbol : Symbol.ofPrefix? (c :: cs) with
    | none =>
      rw [hsymbol] at h
      cases h
    | some symbol =>
      -- no symbol is a string
      rw [hsymbol] at h
      have hstring : Symbol.kind (String.ofList symbol) = .stringLiteral := Option.some.inj h
      rcases Symbol.kind_cases (String.ofList symbol) with hk | hk | hk <;>
      · rw [hstring] at hk
        cases hk

/-- A string literal has an opening. -/
theorem exists_opens (h : (ctx.segment (ctx.cut c cs)).kind? = some .stringLiteral) :
    ∃ o, ctx.Opens c cs o := by
  obtain ⟨next, hnext⟩ : ∃ next, ctx.cut c cs = next := ⟨_, rfl⟩
  have hcut := hnext
  unfold cut at hcut
  rw [hnext] at h
  split at hcut
  · subst hcut; cases h
  split at hcut
  · subst hcut; cases h
  split at hcut
  · subst hcut; cases h
  split at hcut
  · subst hcut; cases h
  split at hcut
  · rename_i hquote
    exact ⟨_, .quote (by simpa [quotes] using hquote) (hnext.trans hcut.symm)⟩
  split at hcut
  · subst hcut; cases h
  split at hcut
  · exact exists_opens_of_cutWord (hnext.trans hcut.symm) (by rwa [hnext])
  split at hcut
  · subst hcut; cases h
  split at hcut
  · rename_i hpattern
    have hc : c = '/' := by simpa using ((Bool.and_eq_true _ _).mp hpattern).1
    exact ⟨_, .slash hc (hnext.trans hcut.symm)⟩
  · exact exists_opens_of_cutSymbol (hnext.trans hcut.symm) (by rwa [hnext])

/-! ### There is one opening only -/

theorem isNameStart_of_word {word : String} {rest : List Char}
    (hword : word ∈ ["q", "qq", "qw", "qr", "m", "s", "tr", "y"])
    (hname : qualifiedName (c :: cs) = ⟨word.toList, rest⟩) : isNameStart c = true := by
  have hwhole := whole_qualifiedName (c :: cs)
  rw [hname] at hwhole
  simp only [List.mem_cons, List.not_mem_nil, or_false] at hword
  rcases hword with rfl | rfl | rfl | rfl | rfl | rfl | rfl | rfl <;>
  · obtain ⟨rfl, -⟩ := List.cons.inj hwhole
    decide

/-- The first character tells a quote, a quote word and a slash from each other, and no marker is a
literal that is read at once. -/
theorem Opens.unique {o o' : Opening} (h : ctx.Opens c cs o) (h' : ctx.Opens c cs o') : o = o' := by
  have hquote : c ∈ ['"', '\'', '\x60'] → isNameStart c = true → False := by
    simp only [List.mem_cons, List.not_mem_nil, or_false]
    rintro (rfl | rfl | rfl) <;> decide
  have hslash : c = '/' → isNameStart c = true → False := by
    rintro rfl
    decide
  have hboth : c = '/' → c ∈ ['"', '\'', '\x60'] → False := by
    rintro rfl
    decide
  cases h with
  | quote hc hcut =>
    cases h' with
    | quote => rfl
    | word hword hname => exact (hquote hc (isNameStart_of_word hword hname)).elim
    | slash hc' => exact (hboth hc' hc).elim
    | heredoc _ hcut' => cases hcut.symm.trans hcut'
  | word hword hname _ hcut =>
    cases h' with
    | quote hc => exact (hquote hc (isNameStart_of_word hword hname)).elim
    | word _ hname' =>
      have hwords := congrArg Cut.taken (hname.symm.trans hname')
      rw [String.toList_inj.mp hwords]
    | slash hc => exact (hslash hc (isNameStart_of_word hword hname)).elim
    | heredoc _ hcut' => cases hcut.symm.trans hcut'
  | slash hc hcut =>
    cases h' with
    | quote hc' => exact (hboth hc hc').elim
    | word hword hname => exact (hslash hc (isNameStart_of_word hword hname)).elim
    | slash => rfl
    | heredoc _ hcut' => cases hcut.symm.trans hcut'
  | heredoc htag hcut =>
    cases h' with
    | heredoc htag' hcut' =>
      obtain ⟨hpiece, hcuts⟩ := Prod.mk.inj (hcut.symm.trans hcut')
      obtain rfl := Piece.heredoc.inj hpiece
      obtain rfl := List.append_cancel_left (Cut.mk.inj hcuts).1
      rw [htag.unique htag']
    | quote _ hcut' | word _ _ _ hcut' | slash _ hcut' => cases hcut.symm.trans hcut'

/-! ### What the text tells -/

theorem Opens.interpolates {o : Opening} (h : ctx.Opens c cs o) {t : Token}
    (hkind : t.kind = .stringLiteral) (hbegins : (ctx.cut c cs).2.taken <+: t.text.toList) :
    t.interpolates = o.interpolates := by
  obtain ⟨more, hmore⟩ := hbegins
  unfold Token.interpolates
  rw [hkind, ← hmore]
  cases h with
  | quote hc hcut =>
    rw [hcut]
    simp only [List.mem_cons, List.not_mem_nil, or_false] at hc
    rcases hc with rfl | rfl | rfl <;>
      simp [Opening.interpolates, Token.opensInterpolatingHeredoc, List.isPrefixOf]
  | @word word rest literal hword hname hliteral hcut =>
    -- no name goes on where the literal starts
    obtain ⟨d, ds, hd⟩ := List.exists_cons_of_ne_nil (taken_quoted?_ne_nil hliteral)
    have hend : isNameChar d = false := by
      refine head?_rest_qualifiedName (c :: cs) d ?_
      rw [hname, ← whole_quoted? hliteral, Cut.whole, hd]
      rfl
    rw [hcut, Cut.taken_after, hd]
    have hq : d ≠ 'q' := by
      rintro rfl
      revert hend
      decide
    simp only [List.mem_cons, List.not_mem_nil, or_false] at hword
    rcases hword with rfl | rfl | rfl | rfl | rfl | rfl | rfl | rfl <;>
      simp [Opening.interpolates, Token.opensInterpolatingHeredoc, List.isPrefixOf, hq.symm]
  | slash hc hcut =>
    subst hc
    rw [hcut]
    simp [cutPattern, Opening.interpolates, Token.opensInterpolatingHeredoc, List.isPrefixOf]
  | @heredoc h quote tag rest htag hcut =>
    rw [hcut]
    -- the tilde is passed over, if there is one
    obtain ⟨d, ds, rfl, hd, hquote⟩ := htag.exists_cons
    cases h.indented <;>
      simp [Opening.interpolates, Token.opensInterpolatingHeredoc, List.isPrefixOf, hd, hquote]

end Cut

end Context

/-! ### Sources -/

/-- There is one segment at a place. -/
theorem Context.before_eq_of_position_eq {cs : List Char}
    {before before' after after' : List Segment} {s s' : Segment}
    (h : (start.segments cs).1 = before ++ s :: after)
    (h' : (start.segments cs).1 = before' ++ s' :: after') (hposition : s.position = s'.position) :
    before = before' := by
  obtain ⟨htext, hplace, rest, hwhole⟩ := place_of_segments h
  obtain ⟨htext', hplace', rest', hwhole'⟩ := place_of_segments h'
  have hsame : Segment.textOf before = Segment.textOf before' :=
    Position.eq_of_afterAll_eq (hwhole ▸ List.prefix_append _ _) (hwhole' ▸ List.prefix_append _ _)
      (hplace.symm.trans (hposition.trans hplace'))
  -- one of them goes on from the other, by no text
  rcases List.append_eq_append_iff.mp (h.symm.trans h') with
    ⟨more, rfl, hmore⟩ | ⟨more, rfl, hmore⟩
  · cases more with
    | nil => rw [List.append_nil]
    | cons u more =>
      obtain ⟨rfl, -⟩ := List.cons.inj hmore
      simp [htext] at hsame
  · cases more with
    | nil => rw [List.append_nil]
    | cons u more =>
      obtain ⟨rfl, -⟩ := List.cons.inj hmore
      simp [htext'] at hsame

namespace Lexed

/-- What the literal of a token is opened by where the run over a source comes to it. -/
def Opens (content : String) (t : Token) (o : Opening) : Prop :=
  ∃ before s after c cs, (Context.start.segments content.toList).1 = before ++ s :: after ∧
    s.Shows t ∧ content.toList = Segment.textOf before ++ c :: cs ∧
    s = (Context.start.afterAll before).segment ((Context.start.afterAll before).cut c cs) ∧
    (Context.start.afterAll before).Opens c cs o

theorem Opens.unique {content : String} {t : Token} {o o' : Opening} (h : Opens content t o)
    (h' : Opens content t o') : o = o' := by
  obtain ⟨before, s, after, c, cs, hsegments, hshows, hsource, -, ho⟩ := h
  obtain ⟨before', s', after', c', cs', hsegments', hshows', hsource', -, ho'⟩ := h'
  obtain rfl := Context.before_eq_of_position_eq hsegments hsegments'
    (hshows.position.symm.trans hshows'.position)
  obtain ⟨rfl, rfl⟩ := List.cons.inj (List.append_cancel_left (hsource.symm.trans hsource'))
  exact ho.unique ho'

/-- **Interpolation.**  Every string literal of a source has one opening, and the text of its token
tells whether this is one after which variables are replaced, whatever is in the body. -/
theorem interpolates_eq_of_opens {content : String} {t : Token} (ht : t ∈ (lex content).tokens)
    (hkind : t.kind = .stringLiteral) :
    (∃! o, Opens content t o) ∧ ∀ o, Opens content t o → t.interpolates = o.interpolates := by
  refine ⟨?_, ?_⟩
  · obtain ⟨before, s, after, hsegments, hshows⟩ := exists_segment_of_mem_tokens ht
    obtain ⟨c, cs, hsource, hs⟩ := Context.segments_cut hsegments
    have hstring : s.kind? = some .stringLiteral := hkind ▸ hshows.kind
    rw [hs] at hstring
    obtain ⟨o, ho⟩ := Context.exists_opens hstring
    have hopens : Opens content t o :=
      ⟨before, s, after, c, cs, hsegments, hshows, hsource, hs, ho⟩
    exact ⟨o, hopens, fun o' ho' => Opens.unique ho' hopens⟩
  · rintro o ⟨before, s, after, c, cs, -, hshows, -, rfl, ho⟩
    exact ho.interpolates hkind hshows.begins

/-- A heredoc with a single-quoted tag is none, though a double-quoted string is in its body. -/
theorem interpolates_eq_of_opens_heredoc :
    let t : Token := ⟨.stringLiteral, "<<~'E'\n \"$x\"", ⟨1, 3⟩⟩
    t ∈ (lex "f(<<~'E', q(qq));\n \"$x\"\n E\n").tokens ∧ t.interpolates = false ∧
      ∃ o, Opens "f(<<~'E', q(qq));\n \"$x\"\n E\n" t o ∧ t.interpolates = o.interpolates := by
  intro t
  have ht : t ∈ (lex "f(<<~'E', q(qq));\n \"$x\"\n E\n").tokens := by decide +kernel
  obtain ⟨⟨o, ho, -⟩, hagree⟩ := interpolates_eq_of_opens ht rfl
  exact ⟨ht, by decide, o, ho, hagree o ho⟩

end Lexed

end WordRole
