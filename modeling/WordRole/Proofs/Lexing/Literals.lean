import WordRole.Proofs.Lexing.Scanners

/-!
# How far a literal looks

A body that is closed does not depend on what follows it (`Lexeme.bodyWithin_append`), and one that
is not closed takes all of the text.  A quote word looks further than its literal only when it has
none, and then not beyond its line:

* `Lexeme.quoted?_append`: the literal of a quote word before texts that start alike;
* `Lexeme.opensAfter_content`: whether a quote word has a literal is told by the line.
-/

namespace WordRole

open Text (Cut)

namespace Lexeme

/-! ### Delimited literals -/

theorem cut_after_eq_iff {d : Delimited} {cs t x : List Char} :
    (d.after cs).cut = ⟨t, x⟩ ↔ ∃ t', t = cs ++ t' ∧ d.cut = ⟨t', x⟩ := Cut.after_eq_iff

/-- What a character other than a backslash does to a body. -/
theorem bodyWithin_of_ne {opening : Char} {depth : Nat} {c : Char} (h : c ≠ '\\')
    (s : List Char) :
    bodyWithin opening depth (c :: s) =
      if closing opening ≠ opening ∧ c = opening then
        (bodyWithin opening (depth + 1) s).after [c]
      else if c = closing opening then
        match depth with
        | 0 => ⟨⟨[c], s⟩, true⟩
        | depth + 1 => (bodyWithin opening depth s).after [c]
      else (bodyWithin opening depth s).after [c] := by
  rw [bodyWithin.eq_def]
  split
  · rename_i heq
    cases heq
  · rename_i heq
    exact absurd (List.cons.inj heq).1 h
  · rename_i heq
    obtain ⟨rfl, rfl⟩ := List.cons.inj heq
    rfl

/-- A body that ends before a text is closed, whatever the text is. -/
theorem bodyWithin_append {opening : Char} {depth : Nat} {t x : List Char} (hx : x ≠ [])
    (h : (bodyWithin opening depth (t ++ x)).cut = ⟨t, x⟩) (y : List Char) :
    (bodyWithin opening depth (t ++ x)).closed = true ∧
      bodyWithin opening depth (t ++ y) = ⟨⟨t, y⟩, true⟩ := by
  generalize hs : t ++ x = s at h
  -- a backslash before something else has been dealt with
  have hplain : ∀ {c : Char} {t' cs : List Char}, t' ++ x = c :: cs → t' ≠ [] →
      (∀ d ds, c = '\\' → cs = d :: ds → False) → c ≠ '\\' := by
    rintro c t' cs hcs ht hesc rfl
    obtain ⟨e, t', rfl⟩ := List.exists_cons_of_ne_nil ht
    obtain rfl : t' ++ x = cs := (List.cons.inj hcs).2
    obtain ⟨d, ds, hd⟩ := List.exists_cons_of_ne_nil (List.append_ne_nil_of_right_ne_nil t' hx)
    exact hesc d ds rfl hd
  -- some characters, and the body inside the brackets that are open then
  have later : ∀ (front : List Char) {cs : List Char} {depth' : Nat} {t : List Char},
      t ++ x = front ++ cs →
      ((bodyWithin opening depth' cs).after front).cut = ⟨t, x⟩ →
      (∀ {t'}, t' ++ x = cs → (bodyWithin opening depth' cs).cut = ⟨t', x⟩ →
        (bodyWithin opening depth' cs).closed = true ∧
          bodyWithin opening depth' (t' ++ y) = ⟨⟨t', y⟩, true⟩) →
      ((bodyWithin opening depth' cs).after front).closed = true ∧ ∃ t', t = front ++ t' ∧
        (bodyWithin opening depth' (t' ++ y)).after front = ⟨⟨t, y⟩, true⟩ := by
    intro front cs depth' t hs h ih
    obtain ⟨t', rfl, hrest⟩ := cut_after_eq_iff.mp h
    obtain ⟨hclosed, hy⟩ := ih (by simpa using hs) hrest
    exact ⟨hclosed, t', rfl, by rw [hy]; rfl⟩
  fun_induction bodyWithin opening depth s generalizing t with
  | case1 => exact absurd (Cut.mk.inj h).2.symm hx
  | case2 depth c cs ih =>
    obtain ⟨hclosed, t', rfl, hy⟩ := later ['\\', c] hs h ih
    refine ⟨hclosed, ?_⟩
    show bodyWithin opening depth ('\\' :: c :: (t' ++ y)) = _
    rw [bodyWithin, hy]
  | case3 depth c cs hesc hc ih =>
    obtain ⟨hclosed, t', rfl, hy⟩ := later [c] hs h ih
    refine ⟨hclosed, ?_⟩
    show bodyWithin opening depth (c :: (t' ++ y)) = _
    rw [bodyWithin_of_ne (hplain hs (by simp) hesc), if_pos hc, hy]
  | case4 cs hesc hc =>
    obtain ⟨rfl, rfl⟩ := Cut.mk.inj h
    refine ⟨rfl, ?_⟩
    show bodyWithin opening 0 (closing opening :: y) = _
    rw [bodyWithin_of_ne (hplain hs (by simp) hesc), if_neg hc, if_pos rfl]
  | case5 cs depth hesc hc ih =>
    obtain ⟨hclosed, t', rfl, hy⟩ := later [closing opening] hs h ih
    refine ⟨hclosed, ?_⟩
    show bodyWithin opening (depth + 1) (closing opening :: (t' ++ y)) = _
    rw [bodyWithin_of_ne (hplain hs (by simp) hesc), if_neg hc, if_pos rfl]
    exact hy
  | case6 depth c cs hesc hc hclose ih =>
    obtain ⟨hclosed, t', rfl, hy⟩ := later [c] hs h ih
    refine ⟨hclosed, ?_⟩
    show bodyWithin opening depth (c :: (t' ++ y)) = _
    rw [bodyWithin_of_ne (hplain hs (by simp) hesc), if_neg hc, if_neg hclose, hy]

theorem body_append {opening : Char} {t x : List Char} (hx : x ≠ [])
    (h : (body opening (t ++ x)).cut = ⟨t, x⟩) (y : List Char) :
    (body opening (t ++ x)).closed = true ∧ body opening (t ++ y) = ⟨⟨t, y⟩, true⟩ :=
  bodyWithin_append hx h y

theorem secondBody_append {opening : Char} {t x : List Char} (hx : x ≠ [])
    (h : (secondBody opening (t ++ x)).cut = ⟨t, x⟩) (y : List Char) :
    (secondBody opening (t ++ x)).closed = true ∧
      secondBody opening (t ++ y) = ⟨⟨t, y⟩, true⟩ := by
  unfold secondBody at h ⊢
  by_cases hclosing : closing opening = opening
  · rw [if_pos hclosing] at h ⊢
    rw [if_pos hclosing]
    exact body_append hx h y
  rw [if_neg hclosing] at h ⊢
  rw [if_neg hclosing]
  dsimp only at h ⊢
  -- the gap, and the delimiter after it
  obtain ⟨g, r, hgap⟩ : ∃ g r, Cut.span Text.isBlank (t ++ x) = ⟨g, r⟩ := ⟨_, _, rfl⟩
  have hwhole := Cut.whole_span Text.isBlank (t ++ x)
  rw [hgap] at h hwhole ⊢
  change g ++ r = t ++ x at hwhole
  cases r with
  | nil => exact absurd (Cut.mk.inj h).2.symm hx
  | cons c cs =>
    obtain ⟨t', rfl, hbody⟩ := cut_after_eq_iff.mp h
    obtain rfl : cs = t' ++ x := by simpa using hwhole
    obtain ⟨hclosed, hy⟩ := body_append hx hbody y
    rw [← hwhole, Cut.span_eq_iff] at hgap
    have hspan : Cut.span Text.isBlank (g ++ c :: (t' ++ y)) = ⟨g, c :: (t' ++ y)⟩ :=
      Cut.span_eq_iff.mpr hgap
    refine ⟨hclosed, ?_⟩
    have hsource : g ++ [c] ++ t' ++ y = g ++ c :: (t' ++ y) := by simp
    rw [hsource, hspan]
    dsimp only
    rw [hy]
    rfl

/-- what a quote word takes after the delimiter that opens its literal -/
def quoteBodies (word : String) (opening : Char) (s : List Char) : Delimited :=
  let first := body opening s
  if first.closed && Vocabulary.twoBodyQuoteWords.contains word then
    (secondBody opening first.cut.rest).after first.cut.taken
  else first

theorem quoted?_eq (word : String) (s : List Char) :
    quoted? word s = match (Cut.span isGap s).rest with
      | [] => none
      | c :: cs =>
        if opensLiteral (!(Cut.span isGap s).taken.isEmpty) c cs then
          some (((quoteBodies word c cs).after ((Cut.span isGap s).taken ++ [c])).andThen modifiers)
        else none := rfl

theorem isBlank_of_isGap {c : Char} (h : isGap c = true) : Text.isBlank c = true := by
  simp only [isGap, Bool.or_eq_true, decide_eq_true_eq] at h
  rcases h with rfl | rfl <;> decide

theorem isBlank_of_opensLiteral {afterGap : Bool} {c : Char} {cs : List Char}
    (h : opensLiteral afterGap c cs = true) : Text.isBlank c = false := by
  simp only [opensLiteral, Bool.and_eq_true, Bool.not_eq_true', Bool.or_eq_false_iff] at h
  exact h.1.2.1.2

@[simp] theorem whole_quoteBodies (word : String) (opening : Char) (s : List Char) :
    (quoteBodies word opening s).cut.whole = s := by
  unfold quoteBodies
  dsimp only
  split
  · rw [cut_after, Cut.whole_after, whole_secondBody]
    exact whole_body opening s
  · exact whole_body opening s

theorem quoteBodies_append {word : String} {opening : Char} {t x : List Char} (hx : x ≠ [])
    (h : (quoteBodies word opening (t ++ x)).cut = ⟨t, x⟩) (y : List Char) :
    (quoteBodies word opening (t ++ x)).closed = true ∧
      quoteBodies word opening (t ++ y) = ⟨⟨t, y⟩, true⟩ := by
  unfold quoteBodies at h ⊢
  dsimp only at h ⊢
  by_cases htwo : Vocabulary.twoBodyQuoteWords.contains word = true
  · simp only [htwo, Bool.and_true] at h ⊢
    obtain ⟨t₁, r, closed, hfirst⟩ : ∃ t₁ r closed, body opening (t ++ x) = ⟨⟨t₁, r⟩, closed⟩ :=
      ⟨_, _, _, rfl⟩
    have hwhole := whole_body opening (t ++ x)
    rw [hfirst] at h hwhole ⊢
    cases closed with
    | false =>
      obtain ⟨rfl, rfl⟩ := Cut.mk.inj h
      exact absurd (body_append hx (congrArg Delimited.cut hfirst) y).1 (by simp [hfirst])
    | true =>
      obtain ⟨t₂, rfl, hsecond⟩ := cut_after_eq_iff.mp h
      obtain rfl : r = t₂ ++ x := by simpa using hwhole
      rw [List.append_assoc] at hfirst ⊢
      obtain ⟨-, hy⟩ := body_append (y := t₂ ++ y) (List.append_ne_nil_of_right_ne_nil t₂ hx)
        (congrArg Delimited.cut hfirst)
      obtain ⟨hclosed, hy'⟩ := secondBody_append hx hsecond y
      simp only [if_true, hy, hy']
      exact ⟨hclosed, rfl⟩
  · simp only [Bool.eq_false_iff.mpr htwo, Bool.and_false, Bool.false_eq_true, if_false] at h ⊢
    exact body_append hx h y

theorem settled_modifiers : Cut.Settled modifiers := Cut.settled_span _

/-- A quote word opens its literal alike before texts that start alike. -/
theorem quoted?_append {word : String} {t x y : List Char} (h : Text.SameStart x y)
    {d : Delimited} (hd : quoted? word (t ++ x) = some d) (hcut : d.cut = ⟨t, x⟩) :
    d.closed = true ∧ quoted? word (t ++ y) = some ⟨⟨t, y⟩, true⟩ := by
  rw [quoted?_eq] at hd ⊢
  obtain ⟨g, r, hgap⟩ : ∃ g r, Cut.span isGap (t ++ x) = ⟨g, r⟩ := ⟨_, _, rfl⟩
  have hwhole := Cut.whole_span isGap (t ++ x)
  rw [hgap] at hd hwhole
  change g ++ r = t ++ x at hwhole
  cases r with
  | nil => cases hd
  | cons c cs =>
    dsimp only at hd
    split at hd
    · rename_i hopens
      obtain rfl := Option.some.inj hd
      -- the bodies, and the letters after them
      obtain ⟨t₁, m, rfl, hfront, hm⟩ := (Cut.andThen_eq_iff whole_modifiers).mp hcut
      obtain ⟨b, rfl, hbodies⟩ := cut_after_eq_iff.mp hfront
      obtain rfl : cs = b ++ (m ++ x) := by simpa using hwhole
      obtain ⟨hclosed, hy⟩ := quoteBodies_append
        (List.append_ne_nil_of_right_ne_nil m h.ne_nil) hbodies (m ++ y)
      rw [← hwhole, Cut.span_eq_iff] at hgap
      have hspan : Cut.span isGap (g ++ c :: (b ++ (m ++ y))) = ⟨g, c :: (b ++ (m ++ y))⟩ :=
        Cut.span_eq_iff.mpr hgap
      have hopens' : opensLiteral (!g.isEmpty) c (b ++ (m ++ y)) = true := by
        unfold opensLiteral at hopens ⊢
        rwa [((h.append m).append b).head?]
      have hsource : g ++ [c] ++ b ++ m ++ y = g ++ c :: (b ++ (m ++ y)) := by simp
      refine ⟨hclosed, ?_⟩
      rw [hsource, hspan]
      dsimp only
      rw [if_pos hopens', hy]
      have hcut' : ((⟨g ++ [c] ++ b, m ++ y⟩ : Cut).andThen modifiers) = ⟨g ++ [c] ++ b ++ m, y⟩ :=
        (Cut.andThen_eq_iff whole_modifiers).mpr ⟨_, m, rfl, rfl, settled_modifiers.stops h hm⟩
      exact congrArg (fun cut => some (Delimited.mk cut true)) hcut'
    · cases hd

/-- whether what follows the gap after a quote word opens a literal -/
def opensAfter (gap : Cut) : Bool :=
  match gap.rest with
  | [] => false
  | c :: cs => opensLiteral (!gap.taken.isEmpty) c cs

theorem quoted?_eq_none_iff {word : String} {s : List Char} :
    quoted? word s = none ↔ opensAfter (.span isGap s) = false := by
  rw [quoted?_eq]
  unfold opensAfter
  split
  · simp
  · split <;> simp_all

/-- Whether a literal is opened after a gap is told by the line. -/
theorem opensAfter_content (s : List Char) :
    opensAfter (.span isGap (Text.content s)) = opensAfter (.span isGap s) := by
  have hrest : ∀ c ∈ (s.dropWhile (· != '\n')).head?, c = '\n' := by
    intro c hc
    have := List.head?_dropWhile_not (· != '\n') s
    rw [hc] at this
    simpa using this
  have hwhole : Text.content s ++ s.dropWhile (· != '\n') = s := List.takeWhile_append_dropWhile
  generalize s.dropWhile (· != '\n') = more at hrest hwhole
  obtain ⟨g, r, hgap⟩ : ∃ g r, Cut.span isGap (Text.content s) = ⟨g, r⟩ := ⟨_, _, rfl⟩
  have hline := Cut.whole_span isGap (Text.content s)
  rw [hgap] at hline ⊢
  change g ++ r = Text.content s at hline
  rw [← hline, Cut.span_eq_iff] at hgap
  rw [← hline, List.append_assoc] at hwhole
  cases r with
  | nil =>
    rw [List.nil_append] at hwhole
    have hspan : Cut.span isGap s = ⟨g, more⟩ := by
      rw [← hwhole, Cut.span_eq_iff]
      refine ⟨hgap.1, fun c hc => ?_⟩
      rw [hrest c hc]
      decide
    rw [hspan]
    cases more with
    | nil => rfl
    | cons c more =>
      -- no literal is opened by a newline
      rw [hrest c rfl]
      simp [opensAfter, opensLiteral, Text.isBlank_newline]
  | cons c cs =>
    have hspan : Cut.span isGap s = ⟨g, c :: (cs ++ more)⟩ := by
      rw [← hwhole]
      exact Cut.span_eq_iff.mpr hgap
    have hhead : decide ((cs ++ more).head? = some '>') = decide (cs.head? = some '>') := by
      cases cs with
      | cons d cs => rfl
      | nil =>
        cases more with
        | nil => rfl
        | cons d more =>
          rw [hrest d rfl]
          rfl
    rw [hspan]
    simp only [opensAfter, opensLiteral, hhead]

end Lexeme

end WordRole
