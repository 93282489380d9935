import WordRole.Proofs.Lexing.Pieces

/-!
# How far a scanner looks

Where a scanner stops is told by what it takes and by a little of what follows: by one or two
characters, by the three of a separator with a name after it, or by the rest of the line
(`Text.SameStart`).  So a scanner that stops before a text stops before any other that starts alike
(`Text.Cut.Settled`):

* `Text.Cut.settled_span`, `Text.Cut.Settled.andThen`, `Text.Cut.settled_through`: the ways of
  cutting;
* `Lexeme.settled_sigiledName`, `Lexeme.settled_number`: variables and numbers.
-/

namespace WordRole

open Text (Cut)
open Lexeme

/-! ### Texts that start alike -/

namespace Text

/-- Two texts that start alike, as far as what stands before them may look: with the same two
characters, or three where a separator of names is first, and with the same line. -/
structure SameStart (x y : List Char) : Prop where
  first : ∃ c d xs ys, x = c :: d :: xs ∧ y = c :: d :: ys ∧ (c = ':' → xs.head? = ys.head?)
  line : content x = content y

section SameStart

variable {x y : List Char} (h : SameStart x y)

include h

theorem SameStart.cons (e : Char) : SameStart (e :: x) (e :: y) := by
  refine ⟨?_, ?_⟩
  · obtain ⟨c, d, xs, ys, rfl, rfl, -⟩ := h.first
    exact ⟨e, c, d :: xs, d :: ys, rfl, rfl, fun _ => rfl⟩
  · have hline := h.line
    unfold content at hline ⊢
    rw [List.takeWhile_cons, List.takeWhile_cons, hline]

theorem SameStart.append (t : List Char) : SameStart (t ++ x) (t ++ y) := by
  induction t with
  | nil => exact h
  | cons e t ih => exact ih.cons e

theorem SameStart.ne_nil : x ≠ [] := by
  obtain ⟨c, d, xs, ys, rfl, -, -⟩ := h.first
  exact List.cons_ne_nil _ _

theorem SameStart.head? : y.head? = x.head? := by
  obtain ⟨c, d, xs, ys, rfl, rfl, -⟩ := h.first
  rfl

theorem SameStart.take_two : y.take 2 = x.take 2 := by
  obtain ⟨c, d, xs, ys, rfl, rfl, -⟩ := h.first
  rfl

end SameStart

/-! ### Lines -/

/-- Whole lines stay lines before any text. -/
theorem lines_flatten_append {s : List Char} {ls more : List (List Char)}
    (h : lines s = ls ++ more) (hmore : more ≠ []) (y : List Char) :
    lines (ls.flatten ++ y) = ls ++ lines y := by
  induction s generalizing ls with
  | nil => exact absurd (List.append_eq_nil_iff.mp h.symm).2 hmore
  | cons c s ih =>
    rw [lines] at h
    cases ls with
    | nil => rfl
    | cons l ls =>
      split at h
      · rename_i hc
        obtain ⟨rfl, htail⟩ := List.cons.inj h
        rw [List.flatten_cons, List.append_assoc, List.singleton_append, lines, if_pos hc,
          ih htail]
        rfl
      · rename_i hc
        cases hs : lines s with
        | nil =>
          -- a text without a newline is one line, after which there is none
          rw [hs] at h
          exact absurd (List.append_eq_nil_iff.mp (List.cons.inj h).2.symm).2 hmore
        | cons m ms =>
          rw [hs] at h
          obtain ⟨rfl, htail⟩ := List.cons.inj h
          have hm : lines s = (m :: ls) ++ more := by rw [hs, htail]; rfl
          have ih := ih hm
          rw [List.flatten_cons, List.append_assoc] at ih
          rw [List.flatten_cons, List.append_assoc, List.cons_append, lines, if_neg hc, ih]
          rfl

end Text

/-! ### Scanners that take a front -/

namespace Text.Cut

/-- Scanners that lose nothing, and stop before a text where they stop before one that starts
alike. -/
structure Settled (f : List Char → Cut) : Prop where
  whole : ∀ s, (f s).whole = s
  stops : ∀ {x y : List Char}, SameStart x y → ∀ {t}, f (t ++ x) = ⟨t, x⟩ → f (t ++ y) = ⟨t, y⟩

theorem cons_eq_iff {c : Char} {cut : Cut} {t x : List Char} :
    cut.cons c = ⟨t, x⟩ ↔ ∃ t', t = c :: t' ∧ cut = ⟨t', x⟩ := by
  constructor
  · intro h
    obtain ⟨rfl, rfl⟩ := Cut.mk.inj h
    exact ⟨_, rfl, rfl⟩
  · rintro ⟨t', rfl, rfl⟩
    rfl

theorem after_eq_iff {cs : List Char} {cut : Cut} {t x : List Char} :
    cut.after cs = ⟨t, x⟩ ↔ ∃ t', t = cs ++ t' ∧ cut = ⟨t', x⟩ := by
  constructor
  · intro h
    obtain ⟨rfl, rfl⟩ := Cut.mk.inj h
    exact ⟨_, rfl, rfl⟩
  · rintro ⟨t', rfl, rfl⟩
    rfl

theorem span_eq_iff {p : Char → Bool} {t x : List Char} :
    span p (t ++ x) = ⟨t, x⟩ ↔ (∀ c ∈ t, p c = true) ∧ ∀ c ∈ x.head?, p c = false := by
  unfold span
  constructor
  · intro h
    obtain ⟨htake, hdrop⟩ := Cut.mk.inj h
    constructor
    · intro c hc
      rw [← htake] at hc
      exact List.all_eq_true.mp List.all_takeWhile c hc
    · intro c hc
      have := List.head?_dropWhile_not p (t ++ x)
      rw [hdrop, hc] at this
      simpa using this
  · rintro ⟨ht, hx⟩
    have hstop : x.takeWhile p = [] ∧ x.dropWhile p = x := by
      cases x with
      | nil => exact ⟨rfl, rfl⟩
      | cons c x => simp [hx c rfl]
    rw [List.takeWhile_append_of_pos ht, List.dropWhile_append_of_pos ht, hstop.1, hstop.2,
      List.append_nil]

theorem settled_span (p : Char → Bool) : Settled (span p) where
  whole := whole_span p
  stops h t ht := by
    rw [span_eq_iff] at ht ⊢
    rw [h.head?]
    exact ht

theorem andThen_eq_iff {cut : Cut} {f : List Char → Cut} (hf : ∀ s, (f s).whole = s)
    {t x : List Char} : cut.andThen f = ⟨t, x⟩ ↔
      ∃ t₁ t₂, t = t₁ ++ t₂ ∧ cut = ⟨t₁, t₂ ++ x⟩ ∧ f (t₂ ++ x) = ⟨t₂, x⟩ := by
  constructor
  · intro h
    obtain ⟨t₁, r⟩ := cut
    obtain ⟨t₂, rfl, hr⟩ := after_eq_iff.mp h
    change f r = ⟨t₂, x⟩ at hr
    obtain rfl : t₂ ++ x = r := by
      have := hf r
      rwa [hr] at this
    exact ⟨t₁, t₂, rfl, rfl, hr⟩
  · rintro ⟨t₁, t₂, rfl, rfl, hr⟩
    exact after_eq_iff.mpr ⟨t₂, rfl, hr⟩

theorem Settled.andThen {f g : List Char → Cut} (hf : Settled f) (hg : Settled g) :
    Settled fun s => (f s).andThen g where
  whole s := (whole_andThen (f s) hg.whole).trans (hf.whole s)
  stops {x y} h t ht := by
    obtain ⟨t₁, t₂, rfl, hfirst, hsecond⟩ := (andThen_eq_iff hg.whole).mp ht
    rw [List.append_assoc] at hfirst
    refine (andThen_eq_iff hg.whole).mpr ⟨t₁, t₂, rfl, ?_, hg.stops h hsecond⟩
    rw [List.append_assoc]
    exact hf.stops (h.append t₂) hfirst

theorem settled_through (p : List Char → Bool) : Settled (through p) where
  whole := whole_through p
  stops {x y} h t ht := by
    have hlines := List.takeWhile_append_dropWhile (p := fun l => !p l) (l := lines (t ++ x))
    obtain ⟨hno, hyes⟩ := until_first p (lines (t ++ x))
    unfold through at ht ⊢
    dsimp only at ht ⊢
    cases hdrop : (lines (t ++ x)).dropWhile fun l => !p l with
    | nil =>
      rw [hdrop] at ht
      exact absurd (Cut.mk.inj ht).2.symm h.ne_nil
    | cons l more =>
      rw [hdrop] at ht hlines
      generalize hbefore : ((lines (t ++ x)).takeWhile fun l => !p l) = before at *
      obtain ⟨rfl, rfl⟩ : before.flatten ++ l = t ∧ more.flatten = x := Cut.mk.inj ht
      have hmore : more ≠ [] := by
        rintro rfl
        exact h.ne_nil rfl
      have hl : p l = true := hyes l more hdrop
      have hsplit : lines (before.flatten ++ l ++ more.flatten) = (before ++ [l]) ++ more := by
        rw [← hlines]
        simp
      have hy := lines_flatten_append hsplit hmore y
      rw [List.flatten_append, List.flatten_singleton, List.append_assoc before] at hy
      have hb : ∀ m ∈ before, (!p m) = true := fun m hm => by simp [hno m hm]
      rw [hy, List.takeWhile_append_of_pos hb, List.dropWhile_append_of_pos hb]
      simp [hl]

end Text.Cut

namespace Lexeme

/-! ### Names -/

theorem qualifiedName_of_isNameChar {c : Char} (hc : isNameChar c = true) (s : List Char) :
    qualifiedName (c :: s) = (qualifiedName s).cons c := by
  have hne : c ≠ ':' := by
    rintro rfl
    revert hc
    decide
  rw [qualifiedName, if_pos hc]
  rintro _ _ rfl
  exact absurd rfl hne

theorem qualifiedName_of_separator {c : Char} (hc : isNameStart c = true) (s : List Char) :
    qualifiedName (':' :: ':' :: c :: s) = (((qualifiedName s).cons c).cons ':').cons ':' := by
  rw [qualifiedName, if_pos hc]

/-- Whether a name goes on is told by the character that follows, or by three where the first is
that of a separator. -/
theorem qualifiedName_nothing_of_sameStart {x y : List Char} (h : Text.SameStart x y)
    (hx : qualifiedName x = .nothing x) : qualifiedName y = .nothing y := by
  obtain ⟨c, d, xs, ys, rfl, rfl, hthird⟩ := h.first
  have hc : isNameChar c = false := by
    cases hc : isNameChar c
    · rfl
    · rw [qualifiedName_of_isNameChar hc] at hx
      cases hx
  cases ys with
  | nil =>
    rw [qualifiedName.eq_def]
    simp [hc]
  | cons e ys =>
    by_cases hsep : c = ':' ∧ d = ':'
    · obtain ⟨rfl, rfl⟩ := hsep
      cases xs with
      | nil => cases hthird rfl
      | cons e' xs =>
        obtain rfl : e' = e := Option.some.inj (hthird rfl)
        have he : isNameStart e' = false := by
          cases he : isNameStart e'
          · rfl
          · rw [qualifiedName_of_separator he] at hx
            cases hx
        rw [qualifiedName, if_neg (by simp [he])]
    · rw [qualifiedName.eq_2 _ _ (by rintro f fs rfl hcons; simp_all), if_neg (by simp [hc])]

theorem settled_qualifiedName : Cut.Settled qualifiedName where
  whole := whole_qualifiedName
  stops {x y} h t ht := by
    have hrun := ht
    generalize hs : t ++ x = s at ht
    fun_induction qualifiedName s generalizing t with
    | case1 c cs hc ih =>
      obtain ⟨_, rfl, hcolon⟩ := Cut.cons_eq_iff.mp ht
      obtain ⟨_, rfl, hfirst⟩ := Cut.cons_eq_iff.mp hcolon
      obtain ⟨t', rfl, hname⟩ := Cut.cons_eq_iff.mp hfirst
      obtain rfl : t' ++ x = cs := by simpa using hs
      rw [List.cons_append, List.cons_append, List.cons_append, qualifiedName_of_separator hc,
        ih t' hname rfl hname]
      rfl
    | case3 c cs _ hc ih =>
      obtain ⟨t', rfl, hname⟩ := Cut.cons_eq_iff.mp ht
      obtain rfl : t' ++ x = cs := by simpa using hs
      rw [List.cons_append, qualifiedName_of_isNameChar hc, ih t' hname rfl hname]
      rfl
    | case2 | case4 | case5 =>
      -- nothing is taken
      obtain ⟨rfl, -⟩ := Cut.mk.inj ht
      exact qualifiedName_nothing_of_sameStart h hrun

/-! ### Variables -/

theorem settled_variableName : Cut.Settled variableName where
  whole := whole_variableName
  stops {x y} h t ht := by
    -- the first character tells how the name goes on
    obtain ⟨c, s, s', hs, hs'⟩ : ∃ c s s', t ++ x = c :: s ∧ t ++ y = c :: s' := by
      obtain ⟨c, d, xs, ys, hx, hy, -⟩ := (h.append t).first
      exact ⟨c, d :: xs, d :: ys, hx, hy⟩
    rw [hs, variableName] at ht
    rw [hs', variableName]
    by_cases hc : (isNameStart c || decide (c = ':')) = true
    · rw [if_pos hc, ← hs] at ht
      rw [if_pos hc, ← hs']
      exact settled_qualifiedName.stops h ht
    rw [if_neg hc] at ht ⊢
    by_cases hd : c.isDigit = true
    · rw [if_pos hd, ← hs] at ht
      rw [if_pos hd, ← hs']
      exact (Cut.settled_span Char.isDigit).stops h ht
    · rw [if_neg hd] at ht ⊢
      obtain ⟨rfl, -⟩ := Cut.mk.inj ht
      obtain ⟨-, rfl⟩ := List.cons.inj hs'
      rfl

/-- `$#` is told by two characters. -/
theorem sigiledName_of_cons (c : Char) {s : List Char} (h : ¬(c = '$' ∧ s.head? = some '#')) :
    sigiledName (c :: s) = (variableName s).cons c := by
  rw [sigiledName.eq_2]
  rintro cs rfl rfl
  exact h ⟨rfl, rfl⟩

theorem settled_sigiledName : Cut.Settled sigiledName where
  whole := whole_sigiledName
  stops {x y} h t ht := by
    cases t with
    | nil =>
      obtain ⟨c, d, xs, ys, rfl, -, -⟩ := h.first
      exact absurd (congrArg Cut.taken ht) (taken_sigiledName_ne_nil c (d :: xs))
    | cons c t =>
      have hhead := (h.append t).head?
      rw [List.cons_append] at ht ⊢
      by_cases hc : c = '$' ∧ (t ++ x).head? = some '#'
      · obtain ⟨rfl, hmark⟩ := hc
        rw [hmark] at hhead
        obtain ⟨s, hs⟩ := List.head?_eq_some_iff.mp hmark
        obtain ⟨s', hs'⟩ := List.head?_eq_some_iff.mp hhead
        rw [hs, sigiledName] at ht
        obtain ⟨_, ht, hrest⟩ := Cut.cons_eq_iff.mp ht
        obtain rfl := (List.cons.inj ht).2
        obtain ⟨t', rfl, hname⟩ := Cut.cons_eq_iff.mp hrest
        obtain rfl : t' ++ x = s := (List.cons.inj hs).2
        rw [List.cons_append, sigiledName, settled_variableName.stops h hname]
        rfl
      · rw [sigiledName_of_cons c hc] at ht
        rw [sigiledName_of_cons c (by rwa [hhead])]
        obtain ⟨_, hname, hrest⟩ := Cut.cons_eq_iff.mp ht
        obtain rfl := (List.cons.inj hname).2
        rw [settled_variableName.stops h hrest]
        rfl

/-- A variable is told by three characters. -/
theorem startsVariable_of_take {s s' : List Char} (h : s'.take 3 = s.take 3) (afterValue : Bool) :
    startsVariable afterValue s' = startsVariable afterValue s := by
  rcases s with _ | ⟨a, _ | ⟨b, _ | ⟨c, s⟩⟩⟩ <;> rcases s' with _ | ⟨a', _ | ⟨b', _ | ⟨c', s'⟩⟩⟩ <;>
    simp only [List.take_succ_cons, List.take_zero, List.take_nil, List.cons.injEq, reduceCtorEq,
      and_false, and_true] at h
  · rfl
  · obtain rfl := h
    rfl
  · obtain ⟨rfl, rfl⟩ := h
    rfl
  · obtain ⟨rfl, rfl, rfl⟩ := h
    unfold startsVariable
    split
    · rename_i c cs heq
      obtain ⟨rfl, rfl, rfl⟩ : a' = '$' ∧ b' = c ∧ c' :: s' = cs := by simpa using heq
      rfl
    all_goals simp_all

/-! ### Numbers -/

theorem fraction_of_not {c d : Char} (h : ¬(c = '.' ∧ d.isDigit = true)) (s : List Char) :
    fraction (c :: d :: s) = .nothing (c :: d :: s) := by
  unfold fraction
  split
  · rename_i heq
    obtain ⟨rfl, rfl, rfl⟩ := by simpa using heq
    rw [if_neg (fun hd => h ⟨rfl, hd⟩)]
  · rfl

theorem settled_digits : Cut.Settled digits := Cut.settled_span _

theorem settled_fraction : Cut.Settled fraction where
  whole := whole_fraction
  stops {x y} h t ht := by
    obtain ⟨c, d, s, s', hs, hs', -⟩ := (h.append t).first
    rw [hs] at ht
    rw [hs']
    by_cases hc : c = '.' ∧ d.isDigit = true
    · obtain ⟨rfl, hd⟩ := hc
      rw [fraction, if_pos hd] at ht ⊢
      obtain ⟨t', rfl, hdigits⟩ := Cut.cons_eq_iff.mp ht
      rw [← (List.cons.inj hs).2] at hdigits
      rw [← (List.cons.inj hs').2]
      exact Cut.cons_eq_iff.mpr ⟨t', rfl, settled_digits.stops h hdigits⟩
    · rw [fraction_of_not hc] at ht ⊢
      obtain ⟨rfl, -⟩ := Cut.mk.inj ht
      exact congrArg (Cut.mk []) hs'.symm

theorem settled_exponent : Cut.Settled exponent where
  whole := whole_exponent
  stops {x y} h t ht := by
    obtain ⟨c, d, s, s', hs, hs', -⟩ := (h.append t).first
    rw [hs] at ht
    rw [hs']
    unfold exponent at ht ⊢
    dsimp only at ht ⊢
    split at ht
    · rename_i hc
      rw [if_pos hc]
      obtain ⟨_, rfl, hsign⟩ := Cut.cons_eq_iff.mp ht
      obtain ⟨t', rfl, hdigits⟩ := Cut.cons_eq_iff.mp hsign
      rw [← (List.cons.inj (List.cons.inj hs).2).2] at hdigits
      rw [← (List.cons.inj (List.cons.inj hs').2).2]
      exact Cut.cons_eq_iff.mpr
        ⟨_, rfl, Cut.cons_eq_iff.mpr ⟨t', rfl, settled_digits.stops h hdigits⟩⟩
    · rename_i hc
      rw [if_neg hc]
      obtain ⟨rfl, -⟩ := Cut.mk.inj ht
      exact congrArg (Cut.mk []) hs'.symm

theorem settled_decimal : Cut.Settled decimal :=
  (settled_digits.andThen settled_fraction).andThen settled_exponent

/-- A radix mark is told by two characters. -/
theorem number_of_not {c d : Char} (h : ¬(c = '0' ∧ ['x', 'X', 'b', 'B'].contains d = true))
    (s : List Char) : number (c :: d :: s) = decimal (c :: d :: s) := by
  unfold number
  split
  · rename_i heq
    obtain ⟨rfl, rfl, rfl⟩ := by simpa using heq
    rw [if_neg (fun hd => h ⟨rfl, hd⟩)]
  · rfl

theorem settled_number : Cut.Settled number where
  whole := whole_number
  stops {x y} h t ht := by
    obtain ⟨c, d, s, s', hs, hs', -⟩ := (h.append t).first
    rw [hs] at ht
    rw [hs']
    by_cases hc : c = '0' ∧ ['x', 'X', 'b', 'B'].contains d = true
    · obtain ⟨rfl, hd⟩ := hc
      rw [number, if_pos hd] at ht ⊢
      obtain ⟨_, rfl, hmark⟩ := Cut.cons_eq_iff.mp ht
      obtain ⟨t', rfl, hdigits⟩ := Cut.cons_eq_iff.mp hmark
      rw [← (List.cons.inj (List.cons.inj hs).2).2] at hdigits
      rw [← (List.cons.inj (List.cons.inj hs').2).2]
      exact Cut.cons_eq_iff.mpr ⟨_, rfl, Cut.cons_eq_iff.mpr ⟨t', rfl,
        (Cut.settled_span _).stops h hdigits⟩⟩
    · rw [number_of_not hc, ← hs] at ht
      rw [number_of_not hc, ← hs']
      exact settled_decimal.stops h ht

end Lexeme

end WordRole
