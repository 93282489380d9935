import WordRole.Proofs.Document.RoundTrip

/-!
# Documents that are accepted

A unit is read back from its document just if a document admits its tokens (`Document.Admits`), and
every text that is accepted makes such a unit.  So what has been read once is read again as it was
(`CodeUnit.document_roundTrip`).

* `Document.bounded_of_ofJson?`: the places of a document are numbers of 64 bits;
* `CodeUnit.admits_of_ofDocument`: what is known of a unit that comes from a document.
-/

namespace WordRole

theorem Json.lt_of_nat64? {v : Json} {n : Nat} (h : v.nat64? = some n) : n < UInt64.size := by
  unfold nat64? at h
  split at h
  · split at h
    · rename_i hdigits
      cases h
      rw [Bool.and_eq_true, decide_eq_true_eq] at hdigits
      exact hdigits.2
    · cases h
  · cases h

namespace Document

/-! ### Documents from values -/

theorem bounded_of_tokenOfJson? {v : Json} {t : SlottedToken} (h : tokenOfJson? v = some t) :
    Bounded t.token := by
  unfold tokenOfJson? at h
  obtain ⟨fields, -, h⟩ := Option.bind_eq_some_iff.mp h
  split at h
  · simp only [Option.bind_eq_bind, Option.bind_eq_some_iff, Option.pure_def,
      Option.some.injEq] at h
    -- of the five fields only the line and the column are looked at
    obtain ⟨_, -, _, -, _, -, _, -, _, -, line, hline, _, -, column, hcolumn, _, -, _, -, rfl⟩ := h
    exact ⟨Json.lt_of_nat64? hline, Json.lt_of_nat64? hcolumn⟩
  · cases h

theorem bounded_of_mapM {vs : List Json} {ts : List SlottedToken}
    (h : vs.mapM tokenOfJson? = some ts) : ∀ t ∈ ts, Bounded t.token := by
  induction vs generalizing ts with
  | nil =>
    cases h
    nofun
  | cons v vs ih =>
    rw [List.mapM_cons] at h
    obtain ⟨t, ht, h⟩ := Option.bind_eq_some_iff.mp h
    obtain ⟨ts, hts, h⟩ := Option.bind_eq_some_iff.mp h
    cases h
    exact List.forall_mem_cons.mpr ⟨bounded_of_tokenOfJson? ht, ih hts⟩

theorem bounded_of_ofJson? {v : Json} {d : Document} (h : ofJson? v = some d) :
    ∀ t ∈ d.tokens, Bounded t.token := by
  unfold ofJson? at h
  obtain ⟨fields, -, h⟩ := Option.bind_eq_some_iff.mp h
  split at h
  · simp only [Option.bind_eq_bind, Option.bind_eq_some_iff, Option.pure_def,
      Option.some.injEq] at h
    obtain ⟨_, -, _, -, _, -, tokens, htokens, rfl⟩ := h
    exact bounded_of_mapM htokens
  · cases h

/-! ### Units from documents -/

theorem codeUnit_eq_ok_iff {d : Document} {fallback : String} {u : CodeUnit} :
    d.codeUnit fallback = .ok u ↔
      fault? none 0 d.tokens = none ∧ u = ⟨d.unit.getD fallback, d.tokens, []⟩ := by
  unfold codeUnit
  cases fault? none 0 d.tokens <;> simp [eq_comm]

end Document

namespace CodeUnit

open Document

theorem ofDocument_eq_ok_iff {fallback text : String} {u : CodeUnit} :
    ofDocument fallback text = .ok u ↔
      ∃ d, (Json.parse? text).bind ofJson? = some d ∧ d.codeUnit fallback = .ok u := by
  unfold ofDocument
  cases (Json.parse? text).bind ofJson? <;> simp

/-- A unit that comes from a document has tokens that a document may list, and no notices. -/
theorem admits_of_ofDocument {fallback text : String} {u : CodeUnit}
    (h : ofDocument fallback text = .ok u) : Admits u.tokens ∧ u.notices = [] := by
  obtain ⟨d, hd, hu⟩ := ofDocument_eq_ok_iff.mp h
  obtain ⟨v, -, hv⟩ := Option.bind_eq_some_iff.mp hd
  obtain ⟨hfault, rfl⟩ := codeUnit_eq_ok_iff.mp hu
  obtain ⟨hsound, horder⟩ := fault?_eq_none_iff.mp hfault
  exact ⟨⟨hsound, bounded_of_ofJson? hv, horder⟩, rfl⟩

/-- **Documents.**  A unit is read back from the text of its document, whatever name is given for
documents without one, just if its tokens have texts and places, these are numbers of 64 bits, and
no token stands before the one that precedes it.  Whatever text is accepted, the unit that it makes
is read back as it is. -/
theorem document_roundTrip :
    (∀ (u : CodeUnit) (fallback : String),
      ofDocument fallback u.document.toJson.pretty = .ok { u with notices := [] } ↔
        Admits u.tokens) ∧
    (∀ (fallback text : String) (u : CodeUnit), ofDocument fallback text = .ok u →
      ∀ other, ofDocument other u.document.toJson.pretty = .ok u) := by
  refine ⟨fun u fallback => ⟨fun h => (admits_of_ofDocument h).1, fun h =>
    ofDocument_document h fallback⟩, fun fallback text u h other => ?_⟩
  obtain ⟨hadmits, hnotices⟩ := admits_of_ofDocument h
  have hagain := ofDocument_document hadmits other
  rwa [← hnotices] at hagain

/-- a quote, a backslash, a control character and characters of two and four bytes, at the last
place that a document has -/
def lastString : Token :=
  ⟨.stringLiteral, "\"\\\x01é😀", ⟨UInt64.size - 1, UInt64.size - 1⟩⟩

/-- Tokens at one place are read back, one with a slot and one without. -/
theorem document_roundTrip_lastString :
    let tokens : List SlottedToken := [⟨lastString, none⟩, ⟨lastString, some .pairValue⟩]
    ofDocument "other" (CodeUnit.mk "a\nb" tokens []).document.toJson.pretty =
      .ok ⟨"a\nb", tokens, []⟩ := by
  intro tokens
  have hsound : Sound lastString := ⟨by decide, by decide, by decide⟩
  have hbounded : Bounded lastString := ⟨by decide, by decide⟩
  have hadmits : Admits tokens := by
    refine ⟨?_, ?_, ?_⟩
    · simp [tokens, hsound]
    · simp [tokens, hbounded]
    · simp [tokens, InOrder, Position.Precedes]
  exact (document_roundTrip.1 ⟨"a\nb", tokens, []⟩ "other").mpr hadmits

end CodeUnit

end WordRole
