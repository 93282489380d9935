import WordRole.Proofs.Buffer.Scanners

/-!
# Where a delimited body ends

A text is read as atoms: a backslash with the character after it, or a character by itself.  The
closing delimiter that ends a body is the first one by itself before which no bracket is left open.

* `closeWithin`: the body of a text that has been read, and `bodyWithin_eq`: it is the body of the
  text;
* `closeWithin_eq_some`, `exists_closeWithin_of_matched`: brackets match before the delimiter that
  is found, and none is passed over;
* `endsBody_body`, `EndsBody.unique`: a body ends where it should, and nowhere else;
* `bodies_end`: so do both bodies of the words that have two.
-/

namespace WordRole

open Text (Cut)

namespace Lexeme

/-! ### Atoms -/

/-- What a body is read by: an escape pair, told by its second character, or a single character. -/
inductive Atom where
  | pair (c : Char)
  | single (c : Char)
deriving DecidableEq, Repr

namespace Atom

def text : Atom → List Char
  | pair c => ['\\', c]
  | single c => [c]

def textOf (as : List Atom) : List Char := as.flatMap text

@[simp] theorem textOf_nil : textOf [] = [] := rfl

@[simp] theorem textOf_cons (a : Atom) (as : List Atom) : textOf (a :: as) = a.text ++ textOf as :=
  List.flatMap_cons

end Atom

def atoms : List Char → List Atom
  | [] => []
  | '\\' :: c :: cs => .pair c :: atoms cs
  | c :: cs => .single c :: atoms cs

@[simp] theorem textOf_atoms (s : List Char) : Atom.textOf (atoms s) = s := by
  fun_induction atoms s <;> simp_all [Atom.text]

/-! ### Brackets that match -/

/-- Atoms with as many closing delimiters as opening ones, each closing one after its opening one.
What opens and closes alike does not nest. -/
inductive Balanced (opening : Char) : List Atom → Prop
  | nil : Balanced opening []
  | other {a : Atom} {as : List Atom} (hopen : a ≠ .single opening)
      (hclose : a ≠ .single (closing opening)) (h : Balanced opening as) :
      Balanced opening (a :: as)
  | nest {inside more : List Atom} (hnests : closing opening ≠ opening)
      (hinside : Balanced opening inside) (hmore : Balanced opening more) :
      Balanced opening (.single opening :: (inside ++ .single (closing opening) :: more))

/-- Whether each opening delimiter among atoms is closed there.  There may be closing delimiters
more. -/
def Matched (opening : Char) (as : List Atom) : Prop :=
  ∀ before rest, as = before ++ .single opening :: rest →
    ∃ inside more, rest = inside ++ .single (closing opening) :: more ∧ Balanced opening inside

/-- Whether a closing delimiter of a text could end a body: the atoms before it and those after it,
and between brackets no bracket is open there. -/
def CanEnd (opening : Char) (s : List Char) (as bs : List Atom) : Prop :=
  atoms s = as ++ .single (closing opening) :: bs ∧
    (closing opening ≠ opening → Matched opening as)

/-- **Where a body ends.**  It is closed if a closing delimiter could end it, and then behind the
first that could; if there is none, it takes all of the text. -/
structure EndsBody (opening : Char) (s : List Char) (d : Delimited) : Prop where
  closed_iff : d.closed = true ↔ ∃ as bs, CanEnd opening s as bs
  /-- no closing delimiter that could end the body is passed over -/
  first : d.closed = true → ∃ as bs, CanEnd opening s as bs ∧
    d.cut = ⟨Atom.textOf as ++ [closing opening], Atom.textOf bs⟩ ∧
      ∀ as' bs', CanEnd opening s as' bs' → as <+: as'
  unclosed : d.closed = false → d.cut = ⟨s, []⟩

/-- **Where two bodies end.**  The second one is there if the first is closed.  Where the first has
brackets, the first character that is not blank opens the second. -/
inductive EndsBodies (opening : Char) (s : List Char) : Delimited → Prop
  | unclosed {first : Delimited} (hfirst : EndsBody opening s first)
      (hclosed : first.closed = false) : EndsBodies opening s first
  | shared {first second : Delimited} (hfirst : EndsBody opening s first)
      (hclosed : first.closed = true) (hsame : closing opening = opening)
      (hsecond : EndsBody opening first.cut.rest second) :
      EndsBodies opening s (second.after first.cut.taken)
  | brackets {first second : Delimited} {gap more : List Char} {next : Char}
      (hfirst : EndsBody opening s first) (hclosed : first.closed = true)
      (hnests : closing opening ≠ opening) (hrest : first.cut.rest = gap ++ next :: more)
      (hgap : ∀ c ∈ gap, Text.isBlank c = true) (hnext : Text.isBlank next = false)
      (hsecond : EndsBody next more second) :
      EndsBodies opening s ((second.after (gap ++ [next])).after first.cut.taken)
  | missing {first : Delimited} (hfirst : EndsBody opening s first) (hclosed : first.closed = true)
      (hnests : closing opening ≠ opening)
      (hrest : ∀ c ∈ first.cut.rest, Text.isBlank c = true) :
      EndsBodies opening s ⟨⟨s, []⟩, false⟩

/-! ### Matched atoms -/

section Matched

variable {opening : Char}

theorem matched_nil : Matched opening [] := by
  intro before rest h
  simp at h

/-- Where one of the atoms of a list stands. -/
theorem cons_eq_append_cons {a b : Atom} {as before rest : List Atom}
    (h : a :: as = before ++ b :: rest) :
    (a = b ∧ as = rest) ∨ ∃ before', before = a :: before' ∧ as = before' ++ b :: rest := by
  obtain ⟨-, h⟩ | h := List.cons_eq_append_iff.mp h
  · exact .inl ⟨(List.cons.inj h).1.symm, (List.cons.inj h).2.symm⟩
  · exact .inr h

theorem Matched.cons {a : Atom} {as : List Atom} (hne : a ≠ .single opening)
    (h : Matched opening as) : Matched opening (a :: as) := by
  intro before rest hsplit
  obtain ⟨heq, -⟩ | ⟨before, rfl, htail⟩ := cons_eq_append_cons hsplit
  · exact absurd heq hne
  · exact h before rest htail

theorem Matched.append {as bs : List Atom} (has : Matched opening as) (hbs : Matched opening bs) :
    Matched opening (as ++ bs) := by
  intro before rest hsplit
  obtain ⟨between, rfl, hbetween⟩ | ⟨between, rfl, hbetween⟩ := List.append_eq_append_iff.mp hsplit
  · exact hbs between rest hbetween
  cases between with
  | nil => exact hbs [] rest hbetween.symm
  | cons b between =>
    obtain ⟨rfl, rfl⟩ := List.cons.inj hbetween
    obtain ⟨inside, more, rfl, hinside⟩ := has before between rfl
    exact ⟨inside, more ++ bs, by simp, hinside⟩

theorem Matched.of_append {as bs : List Atom} (h : Matched opening (as ++ bs)) :
    Matched opening bs := by
  rintro before rest rfl
  exact h (as ++ before) rest (by simp)

theorem Balanced.matched {as : List Atom} (h : Balanced opening as) : Matched opening as := by
  induction h with
  | nil => exact matched_nil
  | other hopen _ _ ih => exact ih.cons hopen
  | @nest inside more hnests hinside _ ihinside ihmore =>
    have hclose : Atom.single (closing opening) ≠ .single opening :=
      fun h => hnests (Atom.single.inj h)
    intro before rest hsplit
    obtain ⟨-, rfl⟩ | ⟨before, rfl, htail⟩ := cons_eq_append_cons hsplit
    · exact ⟨inside, more, rfl, hinside⟩
    · exact (ihinside.append (ihmore.cons hclose)) before rest htail

end Matched

/-! ### The body of a text that has been read -/

section CloseWithin

variable {opening : Char}

/-- The atoms of a body inside `depth` brackets more, and those behind its closing delimiter. -/
def closeWithin (opening : Char) (depth : Nat) : List Atom → Option (List Atom × List Atom)
  | [] => none
  | a :: as =>
    if closing opening ≠ opening ∧ a = .single opening then
      (closeWithin opening (depth + 1) as).map fun found => (a :: found.1, found.2)
    else if a = .single (closing opening) then
      match depth with
      | 0 => some ([], as)
      | depth + 1 => (closeWithin opening depth as).map fun found => (a :: found.1, found.2)
    else (closeWithin opening depth as).map fun found => (a :: found.1, found.2)

theorem closeWithin_nest (hnests : closing opening ≠ opening) (depth : Nat) (as : List Atom) :
    closeWithin opening depth (.single opening :: as) =
      (closeWithin opening (depth + 1) as).map fun found =>
        (.single opening :: found.1, found.2) := by
  rw [closeWithin.eq_def]
  exact if_pos ⟨hnests, rfl⟩

theorem not_nests_closing (opening : Char) :
    ¬(closing opening ≠ opening ∧ Atom.single (closing opening) = .single opening) :=
  fun h => h.1 (Atom.single.inj h.2)

theorem ne_opening_of_ne_closing {a : Atom}
    (hopen : ¬(closing opening ≠ opening ∧ a = .single opening))
    (hclose : a ≠ .single (closing opening)) : a ≠ .single opening := by
  rintro rfl
  exact hopen ⟨fun h => hclose (by rw [h]), rfl⟩

theorem closeWithin_zero_close (as : List Atom) :
    closeWithin opening 0 (.single (closing opening) :: as) = some ([], as) := by
  rw [closeWithin.eq_def]
  exact (if_neg (not_nests_closing opening)).trans (if_pos rfl)

theorem closeWithin_succ_close (depth : Nat) (as : List Atom) :
    closeWithin opening (depth + 1) (.single (closing opening) :: as) =
      (closeWithin opening depth as).map fun found =>
        (.single (closing opening) :: found.1, found.2) := by
  rw [closeWithin.eq_def]
  exact (if_neg (not_nests_closing opening)).trans (if_pos rfl)

theorem closeWithin_other {a : Atom} (hopen : a ≠ .single opening)
    (hclose : a ≠ .single (closing opening)) (depth : Nat) (as : List Atom) :
    closeWithin opening depth (a :: as) =
      (closeWithin opening depth as).map fun found => (a :: found.1, found.2) := by
  rw [closeWithin.eq_def]
  exact (if_neg fun h => hopen h.2).trans (if_neg hclose)

/-- The body of a text, told by its atoms. -/
def Delimited.ofAtoms (opening : Char) (s : List Char) :
    Option (List Atom × List Atom) → Delimited
  | none => ⟨⟨s, []⟩, false⟩
  | some (as, bs) => ⟨⟨Atom.textOf as ++ [closing opening], Atom.textOf bs⟩, true⟩

theorem Delimited.ofAtoms_map (a : Atom) (s : List Char)
    (found : Option (List Atom × List Atom)) :
    ofAtoms opening (a.text ++ s) (found.map fun found => (a :: found.1, found.2)) =
      (ofAtoms opening s found).after a.text := by
  cases found <;> simp [ofAtoms, Delimited.after, Cut.after]

theorem atoms_cons {c : Char} {s : List Char} (h : ∀ d ds, c = '\\' → s = d :: ds → False) :
    atoms (c :: s) = .single c :: atoms s := atoms.eq_3 c s h

/-- A body is told by the atoms of its text. -/
theorem bodyWithin_eq (opening : Char) (depth : Nat) (s : List Char) :
    bodyWithin opening depth s = .ofAtoms opening s (closeWithin opening depth (atoms s)) := by
  fun_induction bodyWithin opening depth s with
  | case1 => rfl
  | case2 depth c s ih =>
    rw [ih, atoms, closeWithin_other Atom.noConfusion Atom.noConfusion]
    exact (Delimited.ofAtoms_map (.pair c) s _).symm
  | case3 depth c s hsingle hopen ih =>
    rw [ih, atoms_cons hsingle, hopen.2, closeWithin_nest hopen.1]
    exact (Delimited.ofAtoms_map (.single opening) s _).symm
  | case4 s hsingle =>
    rw [atoms_cons hsingle, closeWithin_zero_close]
    simp [Delimited.ofAtoms]
  | case5 s depth hsingle _ ih =>
    rw [ih, atoms_cons hsingle, closeWithin_succ_close]
    exact (Delimited.ofAtoms_map (.single (closing opening)) s _).symm
  | case6 depth c s hsingle hopen hclose ih =>
    have hne : Atom.single c ≠ .single (closing opening) := hclose ∘ Atom.single.inj
    rw [ih, atoms_cons hsingle,
      closeWithin_other (ne_opening_of_ne_closing (by simpa using hopen) hne) hne]
    exact (Delimited.ofAtoms_map (.single c) s _).symm

/-! ### Brackets match before the delimiter that is found -/

/-- Atoms with a number of closing delimiters more than opening ones. -/
def Closes (opening : Char) : Nat → List Atom → Prop
  | 0, as => Balanced opening as
  | depth + 1, as => ∃ inside more, as = inside ++ .single (closing opening) :: more ∧
      Balanced opening inside ∧ Closes opening depth more

theorem Closes.other {depth : Nat} {a : Atom} {as : List Atom} (hopen : a ≠ .single opening)
    (hclose : a ≠ .single (closing opening)) (h : Closes opening depth as) :
    Closes opening depth (a :: as) := by
  cases depth with
  | zero => exact Balanced.other hopen hclose h
  | succ depth =>
    obtain ⟨inside, more, rfl, hinside, hmore⟩ := h
    exact ⟨a :: inside, more, rfl, hinside.other hopen hclose, hmore⟩

theorem Closes.nest {depth : Nat} {as : List Atom} (hnests : closing opening ≠ opening)
    (h : Closes opening (depth + 1) as) : Closes opening depth (.single opening :: as) := by
  obtain ⟨inside, more, rfl, hinside, hmore⟩ := h
  cases depth with
  | zero => exact Balanced.nest hnests hinside hmore
  | succ depth =>
    obtain ⟨inside', more, rfl, hinside', hmore⟩ := hmore
    exact ⟨_, more, by simp, Balanced.nest hnests hinside hinside', hmore⟩

theorem exists_of_map_cons {a : Atom} {as bs : List Atom} {found : Option (List Atom × List Atom)}
    (h : (found.map fun found => (a :: found.1, found.2)) = some (as, bs)) :
    ∃ as', as = a :: as' ∧ found = some (as', bs) := by
  obtain ⟨⟨as', bs'⟩, rfl, hpair⟩ := Option.map_eq_some_iff.mp h
  obtain ⟨rfl, rfl⟩ := Prod.mk.inj hpair
  exact ⟨as', rfl, rfl⟩

theorem closeWithin_eq_some {depth : Nat} {atoms as bs : List Atom}
    (h : closeWithin opening depth atoms = some (as, bs)) :
    atoms = as ++ .single (closing opening) :: bs ∧ Closes opening depth as := by
  fun_induction closeWithin opening depth atoms generalizing as with
  | case1 => cases h
  | case2 depth a atoms hopen ih =>
    obtain ⟨as, rfl, hfound⟩ := exists_of_map_cons h
    obtain ⟨rfl, hcloses⟩ := ih hfound
    rw [hopen.2]
    exact ⟨rfl, hcloses.nest hopen.1⟩
  | case3 atoms hopen =>
    cases h
    exact ⟨rfl, Balanced.nil⟩
  | case4 atoms depth hopen ih =>
    obtain ⟨as, rfl, hfound⟩ := exists_of_map_cons h
    obtain ⟨rfl, hcloses⟩ := ih hfound
    exact ⟨rfl, [], as, rfl, Balanced.nil, hcloses⟩
  | case5 depth a atoms hopen hclose ih =>
    obtain ⟨as, rfl, hfound⟩ := exists_of_map_cons h
    obtain ⟨rfl, hcloses⟩ := ih hfound
    exact ⟨rfl, hcloses.other (ne_opening_of_ne_closing hopen hclose) hclose⟩

/-! ### None is passed over -/

/-- A search passes balanced atoms. -/
theorem closeWithin_append_of_balanced {as : List Atom} (h : Balanced opening as) (depth : Nat)
    (bs : List Atom) : closeWithin opening depth (as ++ bs) =
      (closeWithin opening depth bs).map fun found => (as ++ found.1, found.2) := by
  induction h generalizing depth bs with
  | nil => exact (Option.map_id' ..).symm
  | other hopen hclose _ ih =>
    rw [List.cons_append, closeWithin_other hopen hclose, ih, Option.map_map]
    rfl
  | @nest inside more hnests _ _ ihinside ihmore =>
    rw [List.cons_append, closeWithin_nest hnests, List.append_assoc, ihinside,
      List.cons_append, closeWithin_succ_close, ihmore]
    cases closeWithin opening depth bs <;> simp

/-- Atoms that do not start with a closing delimiter start with balanced ones, if all that is opened
is closed. -/
theorem exists_balanced_front {a : Atom} {as : List Atom}
    (h : closing opening ≠ opening → Matched opening (a :: as))
    (hclose : a ≠ .single (closing opening)) :
    ∃ front more, a :: as = front ++ more ∧ front ≠ [] ∧ Balanced opening front := by
  by_cases hopen : a = .single opening
  · subst hopen
    have hnests : closing opening ≠ opening := fun h => hclose (by rw [h])
    obtain ⟨inside, more, rfl, hinside⟩ := h hnests [] as rfl
    exact ⟨.single opening :: (inside ++ [.single (closing opening)]), more, by simp, by simp,
      .nest hnests hinside .nil⟩
  · exact ⟨[a], as, rfl, by simp, .other hopen hclose .nil⟩

/-- A delimiter before which every bracket is closed is not passed over. -/
theorem exists_closeWithin_of_matched {as : List Atom} (bs : List Atom)
    (h : closing opening ≠ opening → Matched opening as) :
    ∃ found rest, closeWithin opening 0 (as ++ .single (closing opening) :: bs) =
      some (found, rest) ∧ found <+: as := by
  induction hn : as.length using Nat.strong_induction_on generalizing as with
  | _ n ih =>
    cases as with
    | nil => exact ⟨[], bs, closeWithin_zero_close bs, List.prefix_rfl⟩
    | cons a as =>
      by_cases hclose : a = .single (closing opening)
      · -- another one stands before
        rw [hclose]
        exact ⟨[], _, closeWithin_zero_close _, List.nil_prefix⟩
      · obtain ⟨front, more, heq, hne, hfront⟩ := exists_balanced_front h hclose
        rw [heq] at h hn ⊢
        have hlt : more.length < n := by
          have := List.length_pos_iff.mpr hne
          rw [List.length_append] at hn
          omega
        obtain ⟨found, rest, hfound, hprefix⟩ :=
          ih more.length hlt (fun hnests => (h hnests).of_append) rfl
        refine ⟨front ++ found, rest, ?_, (List.prefix_append_right_inj front).mpr hprefix⟩
        rw [List.append_assoc, closeWithin_append_of_balanced hfront, hfound]
        rfl

end CloseWithin

/-! ### Bodies end where they should -/

section EndsBody

variable {opening : Char} {s : List Char}

theorem canEnd_of_closeWithin {as bs : List Atom}
    (h : closeWithin opening 0 (atoms s) = some (as, bs)) : CanEnd opening s as bs :=
  have hfound := closeWithin_eq_some h
  ⟨hfound.1, fun _ => Balanced.matched hfound.2⟩

theorem CanEnd.exists_closeWithin {as bs : List Atom} (h : CanEnd opening s as bs) :
    ∃ found rest, closeWithin opening 0 (atoms s) = some (found, rest) ∧ found <+: as := by
  rw [h.1]
  exact exists_closeWithin_of_matched bs h.2

theorem endsBody_body (opening : Char) (s : List Char) : EndsBody opening s (body opening s) := by
  rw [body, bodyWithin_eq]
  cases hfound : closeWithin opening 0 (atoms s) with
  | none =>
    have hnone : ¬∃ as bs, CanEnd opening s as bs := by
      rintro ⟨as, bs, h⟩
      obtain ⟨found, rest, hsome, -⟩ := h.exists_closeWithin
      rw [hfound] at hsome
      cases hsome
    exact ⟨iff_of_false Bool.false_ne_true hnone, fun h => absurd h Bool.false_ne_true,
      fun _ => rfl⟩
  | some found =>
    have hend := canEnd_of_closeWithin hfound
    refine ⟨iff_of_true rfl ⟨_, _, hend⟩, fun _ => ⟨_, _, hend, rfl, ?_⟩,
      fun h => Bool.noConfusion h⟩
    intro as' bs' h
    obtain ⟨found', rest', hsome, hprefix⟩ := h.exists_closeWithin
    obtain rfl := Option.some.inj (hfound.symm.trans hsome)
    exact hprefix

/-- A body ends in one place only. -/
theorem EndsBody.unique {d d' : Delimited} (h : EndsBody opening s d) (h' : EndsBody opening s d') :
    d = d' := by
  have hclosed : d.closed = d'.closed := Bool.eq_iff_iff.mpr (h.closed_iff.trans h'.closed_iff.symm)
  have hcut : d.cut = d'.cut := by
    cases hd : d.closed with
    | false => rw [h.unclosed hd, h'.unclosed (hclosed ▸ hd)]
    | true =>
      obtain ⟨as, bs, hend, hcut, hfirst⟩ := h.first hd
      obtain ⟨as', bs', hend', hcut', hfirst'⟩ := h'.first (hclosed ▸ hd)
      have has : as = as' :=
        (hfirst as' bs' hend').eq_of_length_le (hfirst' as bs hend).length_le
      subst has
      have hbs := List.append_cancel_left (hend.1.symm.trans hend'.1)
      rw [hcut, hcut', (List.cons.inj hbs).2]
  cases d
  cases d'
  exact congrArg₂ Delimited.mk hcut hclosed

/-- The second body, behind brackets. -/
theorem endsBodies_of_nests {first : Delimited} (hfirst : EndsBody opening s first)
    (hwhole : first.cut.whole = s) (hclosed : first.closed = true)
    (hnests : closing opening ≠ opening) :
    EndsBodies opening s ((secondBody opening first.cut.rest).after first.cut.taken) := by
  have hgap : ∀ c ∈ first.cut.rest.takeWhile Text.isBlank, Text.isBlank c = true := fun c hc =>
    List.all_eq_true.mp List.all_takeWhile c hc
  have hnext := List.head?_dropWhile_not Text.isBlank first.cut.rest
  have hspan := List.takeWhile_append_dropWhile (p := Text.isBlank) (l := first.cut.rest)
  rw [secondBody, if_neg hnests]
  unfold Cut.span
  dsimp only
  cases hrest : first.cut.rest.dropWhile Text.isBlank with
  | nil =>
    rw [hrest, List.append_nil] at hspan
    have hcut : Delimited.after first.cut.taken ⟨⟨first.cut.rest, []⟩, false⟩ =
        ⟨⟨s, []⟩, false⟩ := by
      rw [← hwhole]
      rfl
    rw [hspan] at hgap ⊢
    rw [hcut]
    exact .missing hfirst hclosed hnests hgap
  | cons next more =>
    rw [hrest] at hnext hspan
    exact .brackets hfirst hclosed hnests hspan.symm hgap (by simpa using hnext)
      (endsBody_body next more)

theorem endsBodies_quoteBodies {word : String} (hword : word ∈ Vocabulary.twoBodyQuoteWords)
    (opening : Char) (s : List Char) : EndsBodies opening s (quoteBodies word opening s) := by
  have hfirst := endsBody_body opening s
  unfold quoteBodies
  dsimp only
  rw [List.contains_iff_mem.mpr hword, Bool.and_true]
  cases hclosed : (body opening s).closed with
  | false => exact .unclosed hfirst hclosed
  | true =>
    rw [if_pos rfl]
    by_cases hsame : closing opening = opening
    · rw [secondBody, if_pos hsame]
      exact .shared hfirst hclosed hsame (endsBody_body opening _)
    · exact endsBodies_of_nests hfirst (whole_body opening s) hclosed hsame

/-- What a quote word takes where a delimiter opens its literal. -/
theorem quoted?_of_opensLiteral {gap : List Char} (hgap : ∀ c ∈ gap, isGap c = true)
    (hopens : opensLiteral (!gap.isEmpty) opening s = true) (word : String) :
    quoted? word (gap ++ opening :: s) =
      some (((quoteBodies word opening s).after (gap ++ [opening])).andThen modifiers) := by
  have hopening : isGap opening = false :=
    Bool.eq_false_iff.mpr fun h => by
      have := isBlank_of_isGap h
      rw [isBlank_of_opensLiteral hopens] at this
      cases this
  have hspan : Cut.span isGap (gap ++ opening :: s) = ⟨gap, opening :: s⟩ :=
    Cut.span_eq_iff.mpr ⟨hgap, by simpa using hopening⟩
  rw [quoted?_eq, hspan]
  exact if_pos hopens

/-- **Delimited bodies end where they should.**  The body that a delimiter opens is closed if there
is a closing delimiter by itself before which no bracket is open, and ends behind the first one; if
there is none, it takes all that is left.  A cursor that scans it never closes a bracket that is not
open, and stops where the body ends.  The words with two bodies have each of them end so, and their
literal is made of these. -/
theorem bodies_end (opening : Char) (s : List Char) :
    EndsBody opening s (body opening s) ∧
    (∀ (text : List Char) (c : Buffer.Cursor), c.Before text s →
      c.scanBody text opening 0 =
        some ((body opening s).closed, c.advance (body opening s).cut.taken)) ∧
    ∀ word ∈ Vocabulary.twoBodyQuoteWords, ∃ both, EndsBodies opening s both ∧
      (∀ gap, (∀ c ∈ gap, isGap c = true) → opensLiteral (!gap.isEmpty) opening s = true →
        quoted? word (gap ++ opening :: s) =
          some ((both.after (gap ++ [opening])).andThen modifiers)) ∧
      ∀ (text : List Char) (c : Buffer.Cursor), c.Before text s →
        c.scanBodies text word opening = some (both.closed, c.advance both.cut.taken) :=
  ⟨endsBody_body opening s, fun _ _ h => Buffer.Cursor.scanBody_of_before h, fun word hword =>
    ⟨quoteBodies word opening s, endsBodies_quoteBodies hword opening s,
      fun _ hgap hopens => quoted?_of_opensLiteral hgap hopens word,
      fun _ _ h => Buffer.Cursor.scanBodies_of_before h⟩⟩

/-- The bodies of a substitution: brackets with an escaped one inside, then others. -/
theorem bodies_end_substitution :
    EndsBody '(' "a(\\))b) [c]g;".toList ⟨⟨"a(\\))b)".toList, " [c]g;".toList⟩, true⟩ ∧
      ∃ both, EndsBodies '(' "a(\\))b) [c]g;".toList both ∧
        quoted? "s" " (a(\\))b) [c]g;".toList =
          some ((both.after [' ', '(']).andThen modifiers) := by
  have h := bodies_end '(' "a(\\))b) [c]g;".toList
  obtain ⟨both, hboth, hquoted, -⟩ := h.2.2 "s" (by decide)
  exact ⟨h.1, both, hboth, hquoted [' '] (by simp [isGap]) (by decide +kernel)⟩

end EndsBody

end Lexeme

end WordRole
