import Mathlib.Data.List.Find
import WordRole.Proofs.Lexing.Heredocs
import WordRole.Proofs.Lexing.Literals

/-!
# How far the run looks

A segment that ends before a text is the same before every text that starts alike
(`Context.cut_append`), and so are all segments up to there, after which the run goes on from the
same context (`Context.segments_append`).  In a source that is changed further on nothing changes
before.
-/

namespace WordRole

open Text (Cut)
open Lexeme

/-! ### Symbols -/

theorem Symbol.length_le_of_mem_table {s : List Char} (h : s ∈ Symbol.table) : s.length ≤ 3 := by
  revert s
  decide

/-- A symbol is told by three characters. -/
theorem Symbol.ofPrefix?_of_take {s s' : List Char} (h : s'.take 3 = s.take 3) :
    ofPrefix? s' = ofPrefix? s := by
  have htold : ∀ symbol ∈ table, ∀ u : List Char,
      symbol.isPrefixOf u = symbol.isPrefixOf (u.take 3) := by
    intro symbol hm u
    rw [Bool.eq_iff_iff, List.isPrefixOf_iff_prefix, List.isPrefixOf_iff_prefix,
      List.prefix_take_iff, and_iff_left (length_le_of_mem_table hm)]
  unfold ofPrefix?
  refine List.find?_congr fun symbol hm => ?_
  rw [htold symbol hm s', h, ← htold symbol hm s]

/-- Two angle brackets are taken together. -/
theorem Symbol.exists_of_angles (s : List Char) :
    ∃ symbol, ofPrefix? ('<' :: '<' :: s) = some symbol ∧ 2 ≤ symbol.length := by
  cases h : ofPrefix? ('<' :: '<' :: s) with
  | none =>
    have := List.find?_eq_none.mp h ['<'] (by decide)
    simp at this
  | some symbol =>
    refine ⟨symbol, rfl, ?_⟩
    simp [ofPrefix?, table] at h
    rcases h with ⟨-, rfl⟩ | ⟨-, rfl⟩ <;> decide

theorem Text.Cut.length_of_first {n : Nat} {t x : List Char} (hx : x ≠ [])
    (h : first n (t ++ x) = ⟨t, x⟩) : n = t.length := by
  have htake := congrArg List.length (Cut.mk.inj h).1
  rw [List.length_take, List.length_append] at htake
  have hpos := List.length_pos_iff.mpr hx
  omega

/-! ### The next segment -/

namespace Context

/-- A word, with the literal that it may quote. -/
theorem cutWord_append (ctx : Context) {t x y : List Char} (h : Text.SameStart x y)
    (ht : (ctx.cutWord (t ++ x)).2 = ⟨t, x⟩) :
    ctx.cutWord (t ++ y) = ((ctx.cutWord (t ++ x)).1, ⟨t, y⟩) := by
  obtain ⟨n, r, hname⟩ : ∃ n r, qualifiedName (t ++ x) = ⟨n, r⟩ := ⟨_, _, rfl⟩
  have hwhole := whole_qualifiedName (t ++ x)
  rw [hname] at hwhole
  change n ++ r = t ++ x at hwhole
  -- a name that is all of the segment
  have alone : (⟨n, r⟩ : Cut) = ⟨t, x⟩ → n = t ∧ r = x ∧ qualifiedName (t ++ y) = ⟨t, y⟩ := by
    intro he
    obtain ⟨rfl, rfl⟩ := Cut.mk.inj he
    exact ⟨rfl, rfl, settled_qualifiedName.stops h hname⟩
  unfold cutWord at ht ⊢
  rw [hname] at ht ⊢
  dsimp only at ht ⊢
  by_cases hend : Vocabulary.endMarkers.contains (String.ofList n) = true
  · rw [if_pos hend] at ht ⊢
    obtain ⟨rfl, rfl, hy⟩ := alone ht
    rw [hy, if_pos hend]
  rw [if_neg hend] at ht ⊢
  by_cases hquote : (!ctx.afterArrow && Vocabulary.quoteWords.contains (String.ofList n)) = true
  · rw [if_pos hquote] at ht ⊢
    cases hliteral : quoted? (String.ofList n) r with
    | none =>
      rw [hliteral] at ht
      obtain ⟨rfl, rfl, hy⟩ := alone ht
      rw [quoted?_eq_none_iff, ← opensAfter_content, h.line, opensAfter_content,
        ← quoted?_eq_none_iff] at hliteral
      rw [hy]
      dsimp only
      rw [if_neg hend, if_pos hquote, hliteral]
    | some literal =>
      rw [hliteral] at ht
      obtain ⟨t', rfl, hcut⟩ := Cut.after_eq_iff.mp ht
      obtain rfl : r = t' ++ x := by simpa using hwhole
      obtain ⟨hclosed, hy⟩ := quoted?_append h hliteral hcut
      rw [List.append_assoc] at hname ⊢
      rw [settled_qualifiedName.stops (h.append t') hname]
      dsimp only
      rw [if_neg hend, if_pos hquote, hy]
      dsimp only
      rw [hclosed]
      rfl
  · rw [if_neg hquote] at ht ⊢
    obtain ⟨rfl, rfl, hy⟩ := alone ht
    rw [hy]
    dsimp only
    rw [if_neg hend, if_neg hquote]

theorem cutPattern_append {t x y : List Char} (h : Text.SameStart x y)
    (ht : (cutPattern (t ++ x)).2 = ⟨'/' :: t, x⟩) :
    cutPattern (t ++ y) = ((cutPattern (t ++ x)).1, ⟨'/' :: t, y⟩) := by
  obtain ⟨_, hcons, hcut⟩ := Cut.cons_eq_iff.mp ht
  obtain rfl := (List.cons.inj hcons).2
  obtain ⟨t₁, t₂, rfl, hbody, hm⟩ := (Cut.andThen_eq_iff whole_modifiers).mp hcut
  rw [List.append_assoc] at hbody ⊢
  obtain ⟨hclosed, hy⟩ :=
    body_append (List.append_ne_nil_of_right_ne_nil t₂ h.ne_nil) hbody (t₂ ++ y)
  have hcut' : (⟨t₁, t₂ ++ y⟩ : Cut).andThen modifiers = ⟨t₁ ++ t₂, y⟩ :=
    (Cut.andThen_eq_iff whole_modifiers).mpr ⟨t₁, t₂, rfl, rfl, settled_modifiers.stops h hm⟩
  rw [List.append_assoc]
  refine Prod.ext ?_ ?_
  · show Piece.literal (body '/' (t₁ ++ (t₂ ++ y))).closed =
      Piece.literal (body '/' (t₁ ++ (t₂ ++ x))).closed
    rw [hclosed, hy]
  · show Cut.cons '/' ((body '/' (t₁ ++ (t₂ ++ y))).cut.andThen modifiers) = _
    rw [hy, hcut']
    rfl

/-- Where two angle brackets are no marker, they are taken together. -/
theorem exists_of_angles {ctx : Context} {c : Char} {t x : List Char} (hx : x ≠ [])
    (ht : (ctx.cutSymbol c (t ++ x)).2 = ⟨c :: t, x⟩)
    (hmarker : Heredoc.marker? ctx.position (c :: (t ++ x)) = none)
    (hangles : c = '<' ∧ (t ++ x).head? = some '<') : ∃ t', t = '<' :: t' := by
  obtain ⟨rfl, hhead⟩ := hangles
  cases t with
  | nil =>
    obtain ⟨s, rfl⟩ := List.head?_eq_some_iff.mp hhead
    obtain ⟨symbol, hsymbol, hlength⟩ := Symbol.exists_of_angles s
    unfold cutSymbol at ht
    rw [hmarker, List.nil_append, hsymbol] at ht
    have := Cut.length_of_first (t := ['<']) hx ht
    simp at this
    omega
  | cons d t => exact ⟨t, congrArg (· :: t) (Option.some.inj hhead)⟩

theorem cutSymbol_append (ctx : Context) {c : Char} {t x y : List Char} (h : Text.SameStart x y)
    (ht : (ctx.cutSymbol c (t ++ x)).2 = ⟨c :: t, x⟩) :
    ctx.cutSymbol c (t ++ y) = ((ctx.cutSymbol c (t ++ x)).1, ⟨c :: t, y⟩) := by
  cases hmarker : Heredoc.marker? ctx.position (c :: (t ++ x)) with
  | some m =>
    unfold cutSymbol at ht ⊢
    rw [hmarker] at ht
    obtain ⟨heredoc, cut⟩ := m
    obtain rfl : cut = ⟨c :: t, x⟩ := ht
    have hy : Heredoc.marker? ctx.position (c :: (t ++ y)) = _ :=
      Heredoc.marker?_append (t := c :: t) h hmarker
    rw [hmarker, hy]
  | none =>
    have hnone : Heredoc.marker? ctx.position (c :: (t ++ y)) = none := by
      by_cases hangles : c = '<' ∧ (t ++ x).head? = some '<'
      · obtain ⟨t', rfl⟩ := exists_of_angles h.ne_nil ht hmarker hangles
        obtain ⟨rfl, -⟩ := hangles
        exact Heredoc.marker?_eq_none_of_sameStart (h.append t') hmarker
      · rw [← (h.append t).head?] at hangles
        exact Heredoc.marker?_eq_none_of_head? hangles _
    have htake : (c :: (t ++ y)).take 3 = (c :: (t ++ x)).take 3 := by
      rw [List.take_succ_cons, List.take_succ_cons, (h.append t).take_two]
    unfold cutSymbol at ht ⊢
    rw [hmarker] at ht ⊢
    rw [hnone, Symbol.ofPrefix?_of_take htake]
    cases hs : Symbol.ofPrefix? (c :: (t ++ x)) with
    | some symbol =>
      rw [hs] at ht
      have hlength := Cut.length_of_first (t := c :: t) h.ne_nil ht
      have hy : Cut.first symbol.length ((c :: t) ++ y) = ⟨c :: t, y⟩ := by
        unfold Cut.first
        rw [List.take_left' hlength.symm, List.drop_left' hlength.symm]
      exact congrArg (Prod.mk _) hy
    | none =>
      rw [hs] at ht
      obtain ⟨hcons, hrest⟩ := Cut.mk.inj ht
      obtain rfl := (List.cons.inj hcons).2
      rfl

theorem startsPod_of_head? {c : Char} {s s' : List Char} (h : s'.head? = s.head?) :
    startsPod (c :: s') = startsPod (c :: s) := by
  cases s with
  | nil =>
    rw [List.head?_nil, List.head?_eq_none_iff] at h
    rw [h]
  | cons d s =>
    obtain ⟨s', rfl⟩ := List.head?_eq_some_iff.mp h
    unfold startsPod
    split <;> simp_all

/-- **The next segment.**  A segment that ends before a text is the same before every text that
starts alike. -/
theorem cut_append (ctx : Context) {c : Char} {t x y : List Char} (h : Text.SameStart x y)
    (ht : (ctx.cut c (t ++ x)).2 = ⟨c :: t, x⟩) :
    ctx.cut c (t ++ y) = ((ctx.cut c (t ++ x)).1, ⟨c :: t, y⟩) := by
  have htake : (c :: (t ++ y)).take 3 = (c :: (t ++ x)).take 3 := by
    rw [List.take_succ_cons, List.take_succ_cons, (h.append t).take_two]
  have scanned : ∀ {f : List Char → Cut}, Cut.Settled f → f (c :: (t ++ x)) = ⟨c :: t, x⟩ →
      f (c :: (t ++ y)) = ⟨c :: t, y⟩ := fun hf hx => hf.stops h (t := c :: t) hx
  unfold cut at ht ⊢
  rw [startsPod_of_head? (h.append t).head?, startsVariable_of_take htake]
  by_cases hdue : ctx.due ≠ []
  · simp only [if_pos hdue] at ht ⊢
    have hy := Heredoc.bodies_append (t := c :: t) h.ne_nil ht y
    rw [List.cons_append] at hy
    rw [hy]
    rfl
  by_cases hblank : Text.isBlank c = true
  · simp only [if_neg hdue, if_pos hblank] at ht ⊢
    obtain rfl := (List.cons.inj (Cut.mk.inj ht).1).2
    rfl
  by_cases hpod : (decide (ctx.position.column = 1) && startsPod (c :: (t ++ x))) = true
  · simp only [if_neg hdue, if_neg hblank, if_pos hpod] at ht ⊢
    exact congrArg (Prod.mk _) (scanned (Cut.settled_through _) ht)
  by_cases hcomment : c = '#'
  · simp only [if_neg hdue, if_neg hblank, if_neg hpod, if_pos hcomment] at ht ⊢
    exact congrArg (Prod.mk _) (scanned (Cut.settled_span _) ht)
  simp only [if_neg hdue, if_neg hblank, if_neg hpod, if_neg hcomment] at ht ⊢
  by_cases hquote : quotes.contains c = true
  · simp only [if_pos hquote] at ht ⊢
    obtain ⟨_, hcons, hbody⟩ := Cut.cons_eq_iff.mp ht
    obtain rfl := (List.cons.inj hcons).2
    obtain ⟨hclosed, hy⟩ := body_append h.ne_nil hbody y
    rw [hclosed, hy]
    rfl
  by_cases hvariable : startsVariable ctx.afterValue (c :: (t ++ x)) = true
  · simp only [if_neg hquote, if_pos hvariable] at ht ⊢
    exact congrArg (Prod.mk _) (scanned settled_sigiledName ht)
  by_cases hname : isNameStart c = true
  · simp only [if_neg hquote, if_neg hvariable, if_pos hname] at ht ⊢
    exact ctx.cutWord_append (t := c :: t) h ht
  simp only [if_neg hquote, if_neg hvariable, if_neg hname] at ht ⊢
  by_cases hdigit : c.isDigit = true
  · simp only [if_pos hdigit] at ht ⊢
    exact congrArg (Prod.mk _) (scanned settled_number ht)
  by_cases hpattern : (decide (c = '/') && ctx.expectsPattern) = true
  · simp only [if_neg hdigit, if_pos hpattern] at ht ⊢
    simp only [Bool.and_eq_true, decide_eq_true_eq] at hpattern
    obtain rfl := hpattern.1
    exact cutPattern_append h ht
  · simp only [if_neg hdigit, if_neg hpattern] at ht ⊢
    exact ctx.cutSymbol_append h ht

/-! ### All segments -/

def afterAll (ctx : Context) (ss : List Segment) : Context := ss.foldl after ctx

theorem segments_cons {ctx : Context} {c : Char} {cs : List Char}
    (h : (ctx.cut c cs).1 ≠ .endMarker) :
    let s := ctx.segment (ctx.cut c cs)
    ctx.segments (c :: cs) = (s :: ((ctx.after s).segments (ctx.cut c cs).2.rest).1,
      ((ctx.after s).segments (ctx.cut c cs).2.rest).2) := by
  rw [segments]
  exact if_neg h

theorem head_segments (ctx : Context) (c : Char) (cs : List Char) :
    (ctx.segments (c :: cs)).1.head? = some (ctx.segment (ctx.cut c cs)) := by
  rw [segments]
  dsimp only
  split <;> rfl

/-- The first segment is cut from the front of the text. -/
theorem exists_cut_of_segments_cons {ctx : Context} {cs : List Char} {s : Segment}
    {ss : List Segment} (h : (ctx.segments cs).1 = s :: ss) :
    ∃ c t rest, cs = c :: (t ++ rest) ∧ ctx.cut c (t ++ rest) = (s.piece, ⟨c :: t, rest⟩) ∧
      s = ⟨c :: t, ctx.position, s.piece⟩ := by
  obtain ⟨c, cs, rfl⟩ : ∃ c ds, cs = c :: ds := by
    refine List.exists_cons_of_ne_nil ?_
    rintro rfl
    simp [segments] at h
  have hhead := ctx.head_segments c cs
  obtain ⟨hwhole, htaken⟩ := ctx.whole_cut c cs
  rw [h] at hhead
  generalize hnext : ctx.cut c cs = next at hhead hwhole htaken
  obtain ⟨piece, taken, rest⟩ := next
  obtain rfl : s = ⟨taken, ctx.position, piece⟩ := Option.some.inj hhead
  obtain ⟨d, t, rfl⟩ : ∃ d t, taken = d :: t := List.exists_cons_of_ne_nil htaken
  obtain ⟨rfl, rfl⟩ := List.cons.inj hwhole
  exact ⟨d, t, rest, rfl, hnext, rfl⟩

/-- **The rest of the run.**  Segments that end before a text are the same before every text that
starts alike, and the run goes on from the same context. -/
theorem segments_append {ctx : Context} {ss more : List Segment} {x y : List Char}
    (h : Text.SameStart x y)
    (hx : (ctx.segments (Segment.textOf ss ++ x)).1 = ss ++ more)
    (hend : ∀ s ∈ ss, s.piece ≠ .endMarker) :
    ctx.segments (Segment.textOf ss ++ y) =
      (ss ++ ((ctx.afterAll ss).segments y).1, ((ctx.afterAll ss).segments y).2) := by
  induction ss generalizing ctx with
  | nil => rfl
  | cons s ss ih =>
    rw [Segment.textOf_cons, List.append_assoc] at hx ⊢
    obtain ⟨c, t, rest, hsource, hcut, hs⟩ := exists_cut_of_segments_cons hx
    have hpiece : s.piece ≠ .endMarker := hend s List.mem_cons_self
    generalize s.piece = piece at hs hcut hpiece
    obtain rfl := hs
    obtain rfl : Segment.textOf ss ++ x = rest := by simpa using hsource
    have hy : ctx.cut c (t ++ (Segment.textOf ss ++ y)) =
        (piece, ⟨c :: t, Segment.textOf ss ++ y⟩) := by
      rw [ctx.cut_append (h.append (Segment.textOf ss)) (congrArg Prod.snd hcut), hcut]
    rw [List.cons_append, segments_cons (by rwa [hcut]), hcut] at hx
    have hmore := ih (List.cons.inj hx).2 fun u hu => hend u (List.mem_cons_of_mem _ hu)
    rw [List.cons_append, segments_cons (by rwa [hy]), hy]
    exact congrArg (fun r => (_ :: r.1, r.2)) hmore

end Context

end WordRole
