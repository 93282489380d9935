import WordRole.Proofs.Analysis.Items
import WordRole.Proofs.Slot.Comparator

/-!
# Slots that fit their words

A slot is only given to a token that its rule has a classification for, and only before a token that
the rule counts on.  The walk looks at the neighbours in its own way, and partly ahead of time:

* `SlotWalk.suits_barewordSlot`: the slot of a bareword by its neighbours;
* `SlotWalk.fits_afterAll`: the promises on the way, of which each fits the token that it goes to;
* `CodeUnit.inferred_slots_fit`: so every token with a slot is classified, but for some comparators.
-/

namespace WordRole

namespace Slot

/-- What the rule of a slot counts on: a token that can stand there, and what may follow it.  For
comparators it looks at the token itself. -/
def Suits (slot : Slot) (t : Token) (next : Option Token) : Prop :=
  match slot with
  | .containerKey => t.isBareword = true ∧ SlotWalk.isInvoked next = false
  | .memberAccess => t.isBareword = true ∧ SlotWalk.isInvoked next = true
  | .specialBlock => t.isBareword = true ∧ Vocabulary.isSpecialBlock t.text = true ∧
      next.any (·.isDelimiter "\x7b") = true
  | .pairValue => t.isBareword = true ∧ SlotWalk.endsValue next = true
  | .lexicalHandleDeclaration => t.isScalarVariable = true
  | .orderingComparator => True
  | .constantDeclaration | .callableDeclaration | .namespaceDeclaration | .statementCall
  | .ioHandle => t.isBareword = true

/-- whether a slot suits the first token of a list -/
def Starts (slot : Slot) : List Token → Prop
  | [] => True
  | t :: ts => slot.Suits t ts.head?

theorem Suits.holdsWord {slot : Slot} {t : Token} {next : Option Token} (h : slot.Suits t next)
    (hs : slot ≠ .orderingComparator) : (SlottedToken.mk t (some slot)).holdsWord = true := by
  cases slot with
  | containerKey | memberAccess | specialBlock | pairValue => exact h.1
  | lexicalHandleDeclaration =>
    have ht : t.isScalarVariable = true := h
    simp [SlottedToken.holdsWord, ht]
  | orderingComparator => exact absurd rfl hs
  | _ => exact h

end Slot

/-! ### What stands next -/

namespace SlotWalk

theorem isInvoked_of_isFatComma {next : Option Token} (h : next.any (·.isFatComma) = true) :
    isInvoked next = false := by
  cases next with
  | none => rfl
  | some n =>
    simp only [Option.any_some, Token.isFatComma, Token.isOperator, Bool.and_eq_true,
      decide_eq_true_eq, beq_iff_eq] at h
    obtain ⟨hk, ht⟩ := h
    simp [isInvoked, Token.isMemberArrow, Token.isNamespaceSeparator, Token.isOperator,
      Token.isPunctuation, hk, ht, Token.memberArrow, Token.fatComma]

theorem isInvoked_iff {next : Option Token} : isInvoked next = true ↔
    ∃ n, next = some n ∧ (n.isMemberArrow = true ∨ n.isNamespaceSeparator = true) := by
  cases next <;> simp [isInvoked]

theorem not_isDelimiter_of_endsValue {next : Option Token} (h : endsValue next = true) {n : Token}
    (hn : next = some n) : n.isDelimiter "(" = false := by
  subst hn
  obtain ⟨kind, text, position⟩ := n
  rw [Bool.eq_false_iff]
  intro hd
  simp only [Token.isDelimiter, Bool.and_eq_true, decide_eq_true_eq, beq_iff_eq] at hd
  obtain ⟨rfl, rfl⟩ := hd
  have hno : endsValue (some ⟨.delimiter, "(", position⟩) = false := rfl
  rw [hno] at h
  cases h

/-! ### By the neighbours -/

theorem suits_barewordSlot (w : SlotWalk) {t : Token} (hb : t.isBareword = true)
    (next : Option Token) : ∀ slot ∈ w.barewordSlot t.text next, slot.Suits t next := by
  have suits_ite : ∀ {p : Prop} [Decidable p] {x y : Option Slot},
      (p → ∀ slot ∈ x, slot.Suits t next) → (∀ slot ∈ y, slot.Suits t next) →
      ∀ slot ∈ (if p then x else y), slot.Suits t next := by
    intro p _ x y hx hy
    split
    · exact hx ‹p›
    · exact hy
  have given : ∀ {s : Slot}, s.Suits t next → ∀ slot ∈ some s, slot.Suits t next := by
    rintro s hs slot ⟨⟩
    exact hs
  have nothing : ∀ slot ∈ (none : Option Slot), slot.Suits t next := nofun
  unfold barewordSlot
  -- one branch after the other, each with the test that it is taken on
  refine suits_ite (fun _ => given hb) ?_
  refine suits_ite (fun _ => given hb) ?_
  refine suits_ite (fun _ => given hb) ?_
  refine suits_ite (fun _ => nothing) ?_
  refine suits_ite (fun _ => given hb) ?_
  refine suits_ite (fun hblock => given ?_) ?_
  · simp only [Bool.and_eq_true] at hblock
    exact ⟨hb, hblock.1.2, hblock.2⟩
  refine suits_ite (fun hinvoked => given ?_) ?_
  · simp only [Bool.and_eq_true] at hinvoked
    exact ⟨hb, hinvoked.2⟩
  refine suits_ite (fun hcomma => given ⟨hb, isInvoked_of_isFatComma hcomma⟩) ?_
  refine suits_ite (fun _ => nothing) ?_
  refine suits_ite (fun _ => given hb) ?_
  refine suits_ite (fun hvalue => given ?_) ?_
  · simp only [Bool.and_eq_true] at hvalue
    exact ⟨hb, hvalue.2⟩
  exact suits_ite (fun _ => given hb) nothing

theorem suits_ownSlot {w : SlotWalk} {t : Token} {next : Option Token} {slot : Slot}
    (h : w.ownSlot t next = some slot) : slot.Suits t next := by
  unfold ownSlot at h
  split at h
  · cases h
  split at h
  · rename_i hscalar
    split at h
    · cases h; exact hscalar
    · cases h
  split at h
  · rename_i hb
    exact w.suits_barewordSlot hb next slot h
  · cases h

/-! ### By a promise -/

theorem starts_keySlot {ts : List Token} {slot : Slot} (h : keySlot ts = some slot) :
    slot.Starts ts := by
  cases ts with
  | nil => trivial
  | cons t ts =>
    rw [keySlot] at h
    split at h
    · rename_i hkey
      simp only [Bool.and_eq_true, Bool.not_eq_true'] at hkey
      cases h
      exact hkey
    · cases h

theorem starts_comparatorSlot {ts : List Token} {slot : Slot} (h : comparatorSlot ts = some slot) :
    slot.Starts ts := by
  cases ts with
  | nil => trivial
  | cons t ts =>
    rw [comparatorSlot] at h
    split at h
    · cases h; trivial
    split at h
    · cases h
    split at h
    · cases h; trivial
    · cases h

end SlotWalk

/-- What is promised fits the tokens that follow. -/
structure Promise.Fits (p : Promise) (rest : List Token) : Prop where
  next : ∀ slot, p.next = some slot → slot.Starts rest
  afterNext : ∀ slot, p.afterNext = some slot → slot.Starts rest.tail

namespace Promise

theorem fits_none (rest : List Token) : none.Fits rest := ⟨nofun, nofun⟩

theorem Fits.later {p : Promise} {t : Token} {rest : List Token} (h : p.Fits (t :: rest)) :
    p.later.Fits rest := ⟨h.afterNext, nofun⟩

theorem Fits.or {p q : Promise} {rest : List Token} (hp : p.Fits rest) (hq : q.Fits rest) :
    (p.or q).Fits rest where
  next slot h := by
    rcases Option.or_eq_some_iff.mp h with h | ⟨-, h⟩
    · exact hp.next slot h
    · exact hq.next slot h
  afterNext slot h := by
    rcases Option.or_eq_some_iff.mp h with h | ⟨-, h⟩
    · exact hp.afterNext slot h
    · exact hq.afterNext slot h

theorem fits_skipping (skip : Token → Bool) {find : List Token → Option Slot}
    (hfind : ∀ ts slot, find ts = some slot → slot.Starts ts) (rest : List Token) :
    (skipping skip find rest).Fits rest := by
  cases rest with
  | nil => exact fits_none []
  | cons t ts =>
    rw [skipping_cons]
    split
    · exact ⟨nofun, fun slot h => hfind ts slot h⟩
    · exact ⟨fun slot h => hfind (t :: ts) slot h, nofun⟩

end Promise

namespace SlotWalk

theorem fits_promised (w : SlotWalk) (t : Token) (rest : List Token) :
    (w.promised t rest).Fits rest := by
  unfold promised
  split
  · split
    · exact Promise.fits_skipping _ (fun _ _ => starts_keySlot) rest
    · exact Promise.fits_none rest
  · split
    · exact Promise.fits_skipping _ (fun _ _ => starts_comparatorSlot) rest
    · exact Promise.fits_none rest

/-- One token keeps the promises fitting. -/
theorem fits_after {w : SlotWalk} {t : Token} {rest : List Token}
    (h : w.promise.Fits (t :: rest)) : (w.after t rest).promise.Fits rest := by
  rw [promise_after]
  exact h.later.or (w.fits_promised t rest)

theorem fits_afterAll {w : SlotWalk} {before rest : List Token}
    (h : w.promise.Fits (before ++ rest)) : (w.afterAll rest before).promise.Fits rest := by
  induction before generalizing w with
  | nil => exact h
  | cons t before ih => exact ih (fits_after h)

theorem suits_slot {w : SlotWalk} {t : Token} {rest : List Token} {slot : Slot}
    (hp : w.promise.Fits (t :: rest)) (h : w.slot t rest = some slot) :
    slot.Suits t rest.head? := by
  rcases Option.or_eq_some_iff.mp h with h | ⟨-, h⟩
  · exact hp.next slot h
  · exact suits_ownSlot h

end SlotWalk

theorem Slot.suits_of_infer {before : List Token} {t : Token} {rest : List Token} {slot : Slot}
    (h : (Slot.infer (before ++ t :: rest))[before.length]? = some (some slot)) :
    slot.Suits t rest.head? := by
  rw [Slot.infer, SlotWalk.getElem?_slots, Option.some_inj] at h
  exact SlotWalk.suits_slot (SlotWalk.fits_afterAll (Promise.fits_none _)) h

/-! ### What the rules make of it -/

theorem Occurrence.category_of_specialBlock {o : Occurrence} {c : Ruling}
    (hs : o.slot = .specialBlock) (h : Slot.specialBlock.Suits o.token o.next)
    (hc : o.classify = .ok (some c)) : c.category = .implicitCallableDeclaration := by
  obtain ⟨hb, hword, hbrace⟩ := h
  obtain rfl := eq_bareword_of_classify hc
  have hname : Vocabulary.isSpecialBlock o.name = true := by
    rw [Occurrence.name, Token.name_of_isBareword hb, hword]
  have hnext : o.nextIs (·.isDelimiter "\x7b") = true := hbrace
  simp only [bareword, hs, specialBlock, hname, hnext]
  rfl

theorem SlottedToken.holdsWord_of_mem_infer {ts : List Token} {t : SlottedToken}
    (h : t ∈ SlottedToken.infer ts) :
    t.holdsWord = t.slot.any fun s => s != .orderingComparator || t.token.isBareword := by
  obtain ⟨before, u, rest, rfl, s, hs, rfl⟩ :=
    SlottedToken.exists_mem_infer_iff.mp ⟨t, h, (rfl : t = t)⟩
  cases s with
  | none => rfl
  | some slot =>
    by_cases hc : slot = .orderingComparator
    · subst hc
      rfl
    · rw [(Slot.suits_of_infer hs).holdsWord hc]
      simp [hc]

/-- **Slots that fit.**  Whatever is declared, a token with an inferred slot is classified among its
neighbours, if the slot is not that of a comparator, and what follows it is what its rule counts on.
So a unit that is not given up has one classification for each token with a slot, in order, except
for the comparators that are no barewords. -/
theorem CodeUnit.inferred_slots_fit (ts : List Token) :
    (∀ before t rest slot declared, ts = before ++ t :: rest →
      (Slot.infer ts)[before.length]? = some (some slot) → slot ≠ .orderingComparator →
      (∃ c, (Occurrence.mk t slot before.getLast? rest.head? declared).classify = .ok (some c) ∧
        (slot = .specialBlock → c.category = .implicitCallableDeclaration)) ∧
      (slot = .pairValue → ∀ n, rest.head? = some n → n.isDelimiter "(" = false) ∧
      (slot = .containerKey → ∀ n, rest.head? = some n →
        n.isOperator "->" = false ∧ n.isPunctuation "::" = false) ∧
      (slot = .memberAccess → ∃ n, rest.head? = some n ∧
        (n.isOperator "->" = true ∨ n.isPunctuation "::" = true))) ∧
    ∀ unit notices mode,
      let report := (CodeUnit.mk unit (SlottedToken.infer ts) notices).report mode
      report.outcome ≠ .aborted →
        List.Forall₂ Classification.IsOf report.classifications
          ((SlottedToken.infer ts).filter fun t =>
            t.slot.any fun s => s != .orderingComparator || t.token.isBareword) := by
  constructor
  · rintro before t rest slot declared rfl hslot hs
    have hsuits := Slot.suits_of_infer hslot
    obtain ⟨c, hc⟩ := Occurrence.exists_classify_iff
      (o := ⟨t, slot, before.getLast?, rest.head?, declared⟩).mpr (hsuits.holdsWord hs)
    refine ⟨⟨c, hc, ?_⟩, ?_, ?_, ?_⟩
    · rintro rfl
      exact Occurrence.category_of_specialBlock rfl hsuits hc
    · rintro rfl n hn
      exact SlotWalk.not_isDelimiter_of_endsValue hsuits.2 hn
    · rintro rfl n hn
      have hno : SlotWalk.isInvoked rest.head? = false := hsuits.2
      rw [hn] at hno
      exact Bool.or_eq_false_iff.mp hno
    · rintro rfl
      exact SlotWalk.isInvoked_iff.mp hsuits.2
  · intro unit notices mode report hreport
    have hno : ∀ t ∈ SlottedToken.infer ts, t.isFault = false := by
      intro t ht
      rw [Bool.eq_false_iff]
      exact fun hf => hreport ((CodeUnit.outcome_eq_aborted_iff _ mode).mpr ⟨t, ht, hf⟩)
    have hfound : report.classifications = Analyzer.classified
        ((Analyzer.start (SlottedToken.infer ts) notices).pass none (SlottedToken.infer ts)).1 :=
      Analyzer.classifications_run _ notices unit mode
    have hall := (Analyzer.forall₂_items (a := .start (SlottedToken.infer ts) notices) rfl hno
      none).2
    rw [List.filter_congr fun t ht => SlottedToken.holdsWord_of_mem_infer ht] at hall
    rw [hfound]
    exact hall

end WordRole
