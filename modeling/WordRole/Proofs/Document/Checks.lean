import WordRole.Proofs.Document.Accepted

/-!
# The checks of a document

A text that lists tokens is accepted just if they all pass the checks.  Otherwise the error is about
the first token that does not, and tells the first check that it fails
(`CodeUnit.ofDocument_checks`).

* `Document.fault?_append`: the checks remember no more than the place of the last token;
* `Document.fault?_eq_some_iff`: the first fault of a list of tokens.
-/

namespace WordRole

namespace Document

/-- whether a text is a document that has the right form, with these tokens -/
def Lists (text : String) (d : Document) : Prop := (Json.parse? text).bind ofJson? = some d

/-- tokens that have texts and places, none before the one that precedes it -/
structure Checked (ts : List SlottedToken) : Prop where
  sound : ∀ t ∈ ts, Sound t.token
  inOrder : InOrder (ts.map (·.token.position))

/-- What is wrong with a token that stands after others: the first of the checks that it fails. -/
inductive Fails (before : List SlottedToken) (t : Token) : Fault → Prop
  | emptyText (htext : t.text = "") : Fails before t (.emptyText before.length)
  | zeroPosition (htext : t.text ≠ "") (hplace : t.position.line = 0 ∨ t.position.column = 0) :
    Fails before t (.zeroPosition before.length t.position)
  | outOfOrder {last : SlottedToken} (hsound : Sound t) (hlast : before.getLast? = some last)
    (horder : t.position.Precedes last.token.position) :
    Fails before t (.outOfOrder before.length t.position)

/-- a fault of the first token that does not pass -/
def FirstFault (ts : List SlottedToken) (fault : Fault) : Prop :=
  ∃ before t after, ts = before ++ t :: after ∧ Checked before ∧ Fails before t.token fault

/-! ### One token -/

/-- The place after which the token that follows some others is checked. -/
def lastPlace? (last : Option Position) (before : List SlottedToken) : Option Position :=
  (before.getLast?.map (·.token.position)).or last

theorem lastPlace?_cons (last : Option Position) (t : SlottedToken) (before : List SlottedToken) :
    lastPlace? last (t :: before) = lastPlace? (some t.token.position) before := by
  cases before with
  | nil => rfl
  | cons u us => simp [lastPlace?, List.getLast?_cons]

theorem tokenFault?_eq_some_iff {before : List SlottedToken} {t : Token} {fault : Fault} :
    tokenFault? (lastPlace? none before) before.length t = some fault ↔ Fails before t fault := by
  have hlast : lastPlace? none before = before.getLast?.map (·.token.position) := Option.or_none
  unfold tokenFault?
  constructor
  · intro h
    split at h
    · rename_i htext
      cases h
      exact .emptyText (by simpa using htext)
    rename_i htext
    split at h
    · rename_i hplace
      cases h
      exact .zeroPosition (by simpa using htext) (by simpa using hplace)
    rename_i hplace
    split at h
    · rename_i horder
      cases h
      rw [hlast, Option.any_map, Option.any_eq_true] at horder
      obtain ⟨last, hlast, horder⟩ := horder
      simp only [Bool.or_eq_true, decide_eq_true_eq, not_or] at hplace
      have hsound : Sound t := ⟨by simpa using htext, by omega, by omega⟩
      exact .outOfOrder hsound hlast (by simpa using horder)
    · cases h
  · rintro (htext | ⟨htext, hplace⟩ | ⟨hsound, hgetLast, horder⟩)
    · rw [if_pos (by simpa using htext)]
    · rw [if_neg (by simpa using htext), if_pos (by simpa using hplace)]
    · have hplace : ¬(t.position.line = 0 || t.position.column = 0) = true := by
        have := hsound.line
        have := hsound.column
        simp only [Bool.or_eq_true, decide_eq_true_eq]
        omega
      rw [if_neg (by simpa using hsound.text), if_neg hplace, if_pos]
      rw [hlast, hgetLast]
      simpa using horder

/-! ### All tokens -/

theorem checked_iff {ts : List SlottedToken} : Checked ts ↔ fault? none 0 ts = none := by
  rw [fault?_eq_none_iff]
  exact ⟨fun h => ⟨h.sound, h.inOrder⟩, fun h => ⟨h.1, h.2⟩⟩

theorem fault?_append (last : Option Position) (index : Nat) (before after : List SlottedToken) :
    fault? last index (before ++ after) =
      (fault? last index before).or
        (fault? (lastPlace? last before) (index + before.length) after) := by
  induction before generalizing last index with
  | nil => rfl
  | cons t before ih =>
    rw [List.cons_append, fault?, ih, fault?, Option.or_assoc, lastPlace?_cons, List.length_cons,
      Nat.add_right_comm, Nat.add_assoc]

theorem exists_of_fault?_eq_some {last : Option Position} {index : Nat} {ts : List SlottedToken}
    {fault : Fault} (h : fault? last index ts = some fault) :
    ∃ before t after, ts = before ++ t :: after ∧ fault? last index before = none ∧
      tokenFault? (lastPlace? last before) (index + before.length) t.token = some fault := by
  induction ts generalizing last index with
  | nil => cases h
  | cons t ts ih =>
    rw [fault?, Option.or_eq_some_iff] at h
    rcases h with h | ⟨hfirst, h⟩
    · exact ⟨[], t, ts, rfl, rfl, h⟩
    · obtain ⟨before, u, after, rfl, hbefore, hu⟩ := ih h
      refine ⟨t :: before, u, after, rfl, ?_, ?_⟩
      · rw [fault?, hfirst, hbefore]
        rfl
      · rwa [lastPlace?_cons, List.length_cons, ← Nat.add_assoc, Nat.add_right_comm]

theorem fault?_eq_some_iff {ts : List SlottedToken} {fault : Fault} :
    fault? none 0 ts = some fault ↔ FirstFault ts fault := by
  constructor
  · intro h
    obtain ⟨before, t, after, hts, hbefore, ht⟩ := exists_of_fault?_eq_some h
    rw [Nat.zero_add] at ht
    exact ⟨before, t, after, hts, checked_iff.mpr hbefore, tokenFault?_eq_some_iff.mp ht⟩
  · rintro ⟨before, t, after, rfl, hbefore, ht⟩
    rw [fault?_append, checked_iff.mp hbefore, Option.none_or, Nat.zero_add, fault?,
      tokenFault?_eq_some_iff.mpr ht, Option.some_or]

theorem codeUnit_eq_error_iff {d : Document} {fallback : String} {e : Error} :
    d.codeUnit fallback = .error e ↔
      e.unit = d.unit.getD fallback ∧ FirstFault d.tokens e.fault := by
  rw [← fault?_eq_some_iff]
  obtain ⟨unit, fault⟩ := e
  unfold codeUnit
  cases fault? none 0 d.tokens <;> simp [eq_comm]

/-- Every document is listed by its text. -/
theorem lists_pretty {d : Document} (h : ∀ t ∈ d.tokens, Bounded t.token) :
    Lists d.toJson.pretty d := by
  rw [Lists, Json.parse?_pretty (plain_toJson d), Option.bind_some, ofJson?_toJson h]

end Document

namespace CodeUnit

open Document

theorem ofDocument_of_lists {text : String} {d : Document} (h : Lists text d) (fallback : String) :
    ofDocument fallback text = d.codeUnit fallback := by
  unfold ofDocument
  rw [h]

/-- **Checks.**  Every list of tokens with places of 64 bits is the list of some document, under any
name or none.  A text that lists tokens is accepted just if they have texts, places that count from
1 and reading order; then the unit has all of them, as they stand.  Otherwise the first token that
does not pass is reported with its index, by the first check that it fails.  Either way the name
is the document's, or the one given if it has none. -/
theorem ofDocument_checks :
    (∀ d : Document, (∀ t ∈ d.tokens, Bounded t.token) → Lists d.toJson.pretty d) ∧
    ∀ (text : String) (d : Document), Lists text d →
      (∀ t ∈ d.tokens, Bounded t.token) ∧
      ∀ fallback : String,
        (∀ u, ofDocument fallback text = .ok u ↔
          Checked d.tokens ∧ u = ⟨d.unit.getD fallback, d.tokens, []⟩) ∧
        (∀ e, ofDocument fallback text = .error e ↔
          e.unit = d.unit.getD fallback ∧ FirstFault d.tokens e.fault) := by
  refine ⟨fun d h => lists_pretty h, fun text d h => ⟨?_, fun fallback => ?_⟩⟩
  · obtain ⟨v, -, hv⟩ := Option.bind_eq_some_iff.mp h
    exact bounded_of_ofJson? hv
  · rw [ofDocument_of_lists h]
    exact ⟨fun u => by rw [codeUnit_eq_ok_iff, checked_iff], fun e => codeUnit_eq_error_iff⟩

/-- Of two faults the first is reported: a token before its predecessor, then one without a text. -/
theorem ofDocument_checks_outOfOrder :
    let first : SlottedToken := ⟨⟨.identifier, "b", ⟨2, 1⟩⟩, none⟩
    let second : SlottedToken := ⟨⟨.identifier, "a", ⟨1, 9⟩⟩, some .containerKey⟩
    let third : SlottedToken := ⟨⟨.number, "", ⟨0, 0⟩⟩, none⟩
    ofDocument "order.json" (Document.mk none [first, second, third]).toJson.pretty =
      .error ⟨"order.json", .outOfOrder 1 ⟨1, 9⟩⟩ := by
  intro first second third
  have hbounded : ∀ t ∈ [first, second, third], Bounded t.token := by
    simp [first, second, third, Bounded, UInt64.size]
  have hlists := ofDocument_checks.1 ⟨none, [first, second, third]⟩ hbounded
  refine (((ofDocument_checks.2 _ _ hlists).2 "order.json").2 _).mpr ⟨rfl, ?_⟩
  have hsound : Sound first.token := ⟨by decide, by decide, by decide⟩
  have hfirst : Checked [first] := ⟨by simpa using hsound, by simp [InOrder]⟩
  exact ⟨[first], second, [third], rfl, hfirst,
    .outOfOrder ⟨by decide, by decide, by decide⟩ rfl (by decide)⟩

end CodeUnit

end WordRole
