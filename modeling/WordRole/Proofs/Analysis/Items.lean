import Mathlib.Data.List.Forall2
import WordRole.Proofs.Analysis.Step
import WordRole.Proofs.Classification.Rules

/-!
# The item of a token

Which tokens come to an item is told by the token and its slot alone, whatever stands around it and
whatever is declared:

* `Occurrence.exists_classify_iff`: the tokens that the rules have a classification for;
* `Analyzer.step_of_isFault`: a token that cannot be the comparator it stands for stops the pass;
* `Analyzer.forall₂_items`: up to such a token the items are those of the tokens that hold a word,
  one for each and in order.
-/

namespace WordRole

structure Classification.IsOf (c : Classification) (t : SlottedToken) : Prop where
  name : c.name = t.token.name
  slot : t.slot = some c.slot
  position : c.position = t.token.position

namespace SlottedToken

/-- Whether the rules have a classification for a token: in its slot it holds a bareword, or it is a
scalar that is declared as a handle. -/
def holdsWord (t : SlottedToken) : Bool :=
  match t.slot with
  | none => false
  | some .lexicalHandleDeclaration => t.token.isScalarVariable || t.token.isBareword
  | some _ => t.token.isBareword

def fault (t : SlottedToken) : InvalidComparator := ⟨t.token.text, t.token.position⟩

end SlottedToken

def Analyzer.Item.IsOf (item : Item) (t : SlottedToken) : Prop :=
  match item with
  | .ok c => c.IsOf t
  | .error e => t.isFault = true ∧ e = t.fault

/-! ### Barewords -/

namespace Token

theorem kind_of_isBareword {t : Token} (h : t.isBareword = true) : t.kind = .identifier := by
  simp only [isBareword, Bool.and_eq_true, decide_eq_true_eq] at h
  exact h.1

/-- No sigil starts a name. -/
theorem sigil?_of_isBareword {t : Token} (h : t.isBareword = true) : t.sigil? = none := by
  simp only [isBareword, Bool.and_eq_true, decide_eq_true_eq] at h
  obtain ⟨hk, hc⟩ := h
  rw [sigil?, if_pos hk]
  cases hh : t.text.toList.head? with
  | none => rfl
  | some c =>
    rw [hh] at hc
    refine Option.filter_eq_none_iff.mpr fun s hs hmem => ?_
    obtain rfl := Option.some.inj hs
    simp only [List.contains_eq_mem, decide_eq_true_eq, List.mem_cons, List.not_mem_nil,
      or_false] at hmem
    rcases hmem with rfl | rfl | rfl | rfl
    all_goals exact absurd hc (by decide)

theorem name_of_isBareword {t : Token} (h : t.isBareword = true) : t.name = t.text := by
  rw [name, sigil?_of_isBareword h]

theorem not_isScalarVariable_of_isBareword {t : Token} (h : t.isBareword = true) :
    t.isScalarVariable = false := by
  rw [isScalarVariable, sigil?_of_isBareword h]
  rfl

theorem not_isDelimiter_of_isBareword {t : Token} (h : t.isBareword = true) (s : String) :
    t.isDelimiter s = false := by
  simp [isDelimiter, kind_of_isBareword h]

theorem not_isPunctuation_of_isBareword {t : Token} (h : t.isBareword = true) (s : String) :
    t.isPunctuation s = false := by
  simp [isPunctuation, kind_of_isBareword h]

theorem not_isOperator_of_isBareword {t : Token} (h : t.isBareword = true) (s : String) :
    t.isOperator s = false := by
  simp [isOperator, kind_of_isBareword h]

end Token

/-! ### One token -/

namespace Occurrence

/-- The rules have a classification for a token by its own kind, text and slot. -/
theorem exists_classify_iff {o : Occurrence} :
    (∃ c, o.classify = .ok (some c)) ↔
      (SlottedToken.mk o.token (some o.slot)).holdsWord = true := by
  unfold classify SlottedToken.holdsWord
  dsimp only
  by_cases hc : o.slot = .orderingComparator
  · rw [if_pos hc, hc]
    unfold comparator
    cases hb : o.token.isBareword
    · split <;> simp
    · rw [Token.not_isScalarVariable_of_isBareword hb, Token.not_isDelimiter_of_isBareword hb]
      simp
  rw [if_neg hc]
  by_cases hl : o.slot = .lexicalHandleDeclaration
  · rw [hl]
    cases o.token.isScalarVariable <;> cases o.token.isBareword <;> simp
  · cases o.token.isBareword <;> simp [hl]

end Occurrence

namespace Analyzer

/-- the analyzer after a token that cannot be the comparator it stands for -/
def stopped (a : Analyzer) (t : SlottedToken) : Analyzer :=
  { { a with abort := some t.fault }.log (.aborted t.fault) with previous := some t.token }

theorem step_of_isFault {t : SlottedToken} (h : t.isFault = true) (a : Analyzer)
    (n : Option Token) : a.step t n = (some (.error t.fault), a.stopped t) := by
  have hf : ∀ slot e, t.slot = some slot →
      ((a.occurrence t.token slot n).classify = .error e ↔ e = t.fault) := by
    intro slot e hs
    rw [Occurrence.classify_eq_error_iff, occurrence, ← hs]
    exact and_iff_right h
  obtain ⟨hs, -⟩ | ⟨slot, c, hs, hc, -⟩ | ⟨slot, hs, hc, -⟩ | ⟨slot, e, hs, hc, hstep⟩ :=
    a.step_cases t n
  · simp [SlottedToken.isFault, hs] at h
  · have := (hf slot t.fault hs).mpr rfl
    rw [hc] at this
    cases this
  · have := (hf slot t.fault hs).mpr rfl
    rw [hc] at this
    cases this
  · obtain rfl := (hf slot e hs).mp hc
    exact hstep

/-- The item of a token that is no fault is its classification, if it holds a word. -/
theorem step_of_not_isFault {a : Analyzer} (ha : a.abort = none) {t : SlottedToken}
    (h : t.isFault = false) (n : Option Token) :
    (a.step t n).2.abort = none ∧
      ((t.holdsWord = false ∧ (a.step t n).1 = none) ∨
        t.holdsWord = true ∧ ∃ c, (a.step t n).1 = some (.ok c) ∧ c.IsOf t) := by
  refine ⟨by rw [abort_step ha, h]; rfl, ?_⟩
  have hw : ∀ slot, t.slot = some slot →
      ((∃ c, (a.occurrence t.token slot n).classify = .ok (some c)) ↔ t.holdsWord = true) := by
    intro slot hs
    rw [Occurrence.exists_classify_iff, occurrence, ← hs]
  obtain ⟨hs, hstep⟩ | ⟨slot, c, hs, hc, hstep⟩ | ⟨slot, hs, hc, hstep⟩ | ⟨slot, e, hs, hc, -⟩ :=
    a.step_cases t n
  · exact .inl ⟨by simp [SlottedToken.holdsWord, hs], by rw [hstep]⟩
  · obtain ⟨hname, hslot, hposition, -⟩ := Occurrence.judged_of_classify hc
    refine .inr ⟨(hw slot hs).mp ⟨c, hc⟩, c.withRewrite, by rw [hstep], hname, ?_, hposition⟩
    rw [hs]
    exact congrArg some hslot.symm
  · refine .inl ⟨?_, by rw [hstep]⟩
    rw [Bool.eq_false_iff, ne_eq, ← hw slot hs, hc]
    simp
  · have hf := (Occurrence.classify_eq_error_iff.mp hc).1
    rw [occurrence, ← hs, h] at hf
    cases hf

theorem isOf_of_step {a : Analyzer} (ha : a.abort = none) {t : SlottedToken} {n : Option Token}
    {item : Item} (h : (a.step t n).1 = some item) : item.IsOf t := by
  cases hf : t.isFault with
  | true =>
    rw [step_of_isFault hf] at h
    obtain rfl := Option.some.inj h
    exact ⟨hf, rfl⟩
  | false =>
    obtain ⟨-, ⟨-, hn⟩ | ⟨-, c, hc, hof⟩⟩ := step_of_not_isFault ha hf n
    · rw [hn] at h
      cases h
    · rw [hc] at h
      obtain rfl := Option.some.inj h
      exact hof

/-! ### Many tokens -/

theorem abort_pass_of_not_isFault {a : Analyzer} (ha : a.abort = none) {ts : List SlottedToken}
    (h : ∀ t ∈ ts, t.isFault = false) (next : Option Token) : (a.pass next ts).2.abort = none := by
  rw [← Option.not_isSome_iff_eq_none, isSome_abort_pass_iff ha]
  rintro ⟨t, ht, hf⟩
  rw [h t ht] at hf
  cases hf

theorem forall₂_items {a : Analyzer} (ha : a.abort = none) {ts : List SlottedToken}
    (h : ∀ t ∈ ts, t.isFault = false) (next : Option Token) :
    (a.pass next ts).1 = (classified (a.pass next ts).1).map .ok ∧
      List.Forall₂ Classification.IsOf (classified (a.pass next ts).1)
        (ts.filter (·.holdsWord)) := by
  induction ts generalizing a with
  | nil => exact ⟨rfl, .nil⟩
  | cons t ts ih =>
    obtain ⟨hb, hitem⟩ :=
      step_of_not_isFault ha (h t List.mem_cons_self) ((ts.head?.map (·.token)).or next)
    obtain ⟨hitems, hall⟩ := ih hb fun u hu => h u (List.mem_cons_of_mem _ hu)
    rw [pass_cons ha next t ts rfl]
    rcases hitem with ⟨hw, hn⟩ | ⟨hw, c, hc, hof⟩
    · rw [hn, List.filter_cons_of_neg (by simp [hw])]
      exact ⟨hitems, hall⟩
    · rw [hc, List.filter_cons_of_pos hw]
      exact ⟨congrArg (List.cons (Except.ok c)) hitems, .cons hof hall⟩

/-- A pass has been stopped just when one of its items is an error. -/
theorem isSome_abort_pass_iff_error {a : Analyzer} (ha : a.abort = none) (next : Option Token)
    (ts : List SlottedToken) :
    (a.pass next ts).2.abort.isSome ↔ ∃ e, Except.error e ∈ (a.pass next ts).1 := by
  induction ts generalizing a with
  | nil => simp [ha]
  | cons t ts ih =>
    rw [pass_cons ha next t ts rfl]
    cases hf : t.isFault with
    | true =>
      have hstop : (a.stopped t).abort.isSome := rfl
      rw [step_of_isFault hf, pass_of_abort hstop]
      exact iff_of_true hstop ⟨t.fault, by simp⟩
    | false =>
      obtain ⟨hb, hitem⟩ := step_of_not_isFault ha hf ((ts.head?.map (·.token)).or next)
      dsimp only
      rw [ih hb]
      rcases hitem with ⟨-, hn⟩ | ⟨-, c, hc, -⟩
      · simp [hn]
      · simp [hc]

/-- Nothing after a fault is looked at. -/
theorem pass_of_isFault {a : Analyzer} (ha : a.abort = none) {before : List SlottedToken}
    (hb : ∀ u ∈ before, u.isFault = false) {t : SlottedToken} (ht : t.isFault = true)
    (next : Option Token) (after : List SlottedToken) :
    a.pass next (before ++ t :: after) =
      ((a.pass (some t.token) before).1 ++ [.error t.fault],
        (a.pass (some t.token) before).2.stopped t) := by
  have hn : (((t :: after).head?.map (·.token)).or next) = some t.token := rfl
  have hs := abort_pass_of_not_isFault ha hb (some t.token)
  have hstop : ((a.pass (some t.token) before).2.stopped t).abort.isSome := rfl
  rw [pass_append a next before (t :: after) hn, pass_cons hs next t after rfl,
    step_of_isFault ht, pass_of_abort hstop]
  rfl

end Analyzer

end WordRole
