import Mathlib.Data.List.Chain
import WordRole.Document
import WordRole.Proofs.Json.RoundTrip

/-!
# Documents read back

The document of a unit is read as that unit, without its notices, if its tokens are listed in order
and each has a text and a place of 64 bits (`CodeUnit.ofDocument_document`):

* `Document.fault?_eq_none_iff`: the tokens that a document may list;
* `Document.ofJson?_toJson`: every field is read as it was written.
-/

namespace WordRole

/-! ### Values of fields -/

namespace Json

@[simp] theorem text?_text (s : String) : (text s).text? = some s := rfl

@[simp] theorem word?_text (s : String) : (text s).word? = some s := rfl

theorem valueOfDigits_toString (n : Nat) : valueOfDigits (toString n).toList = n := by
  rw [Nat.toString_eq_ofList_toDigits, String.toList_ofList]
  have h := Nat.ofDigitChars_ten_toDigits (n := n)
  rwa [Nat.ofDigitChars_eq_foldl] at h

theorem nat64?_nat {n : Nat} (h : n < UInt64.size) : (nat n).nat64? = some n := by
  have hd : (toString n).toList.all Char.isDigit = true := by
    rw [Nat.toString_eq_ofList_toDigits, String.toList_ofList, List.all_eq_true]
    exact fun d hd => Nat.isDigit_of_mem_toDigits (by decide) (by decide) hd
  simp only [nat, nat64?, hd, valueOfDigits_toString, h, decide_true, Bool.and_self, if_true]

theorem Plain.text (s : String) : (text s).Plain := .string (some s)

theorem Plain.nat (n : Nat) : (nat n).Plain := .number (Lexeme.isNumber_toString n)

theorem Plain.record {fields : List (String × Json)} (h : ∀ f ∈ fields, f.2.Plain) :
    (record fields).Plain := by
  refine .object fun m hm => ?_
  obtain ⟨f, hf, rfl⟩ := List.mem_map.mp hm
  exact h f hf

end Json

namespace Document

/-! ### Checks -/

/-- What a token needs by itself: a text, and a place that counts from 1. -/
structure Sound (t : Token) : Prop where
  text : t.text ≠ ""
  line : 1 ≤ t.position.line
  column : 1 ≤ t.position.column

/-- whether places are in reading order, though not all different -/
def InOrder (ps : List Position) : Prop := ps.IsChain fun p q => ¬q.Precedes p

theorem tokenFault?_eq_none_iff {last : Option Position} {index : Nat} {t : Token} :
    tokenFault? last index t = none ↔ Sound t ∧ ∀ p ∈ last, ¬t.position.Precedes p := by
  unfold tokenFault?
  constructor
  · intro h
    split at h
    · cases h
    split at h
    · cases h
    split at h
    · cases h
    rename_i htext hplace horder
    simp only [Bool.or_eq_true, decide_eq_true_eq, not_or] at hplace
    refine ⟨⟨by simpa using htext, by omega, by omega⟩, fun p hp => ?_⟩
    simpa [Option.mem_def.mp hp] using horder
  · rintro ⟨⟨htext, hline, hcolumn⟩, horder⟩
    have hplace : ¬(decide (t.position.line = 0) || decide (t.position.column = 0)) = true := by
      simp only [Bool.or_eq_true, decide_eq_true_eq]
      omega
    rw [if_neg (by simpa using htext), if_neg hplace, if_neg]
    rw [Option.any_eq_true]
    rintro ⟨p, hp, hlast⟩
    exact horder p hp (by simpa using hlast)

/-- A document may list tokens that are sound and in order. -/
theorem fault?_eq_none_iff {last : Option Position} {index : Nat} {ts : List SlottedToken} :
    fault? last index ts = none ↔ (∀ t ∈ ts, Sound t.token) ∧
      InOrder (last.toList ++ ts.map (·.token.position)) := by
  induction ts generalizing last index with
  | nil => cases last <;> simp [fault?, InOrder]
  | cons t ts ih =>
    rw [fault?, Option.or_eq_none_iff, tokenFault?_eq_none_iff, ih]
    cases last <;> simp [InOrder, List.isChain_cons_cons, and_assoc, and_left_comm]

/-! ### Reading -/

/-- whether the place of a token is read in full -/
def Bounded (t : Token) : Prop :=
  t.position.line < UInt64.size ∧ t.position.column < UInt64.size

/-- The tokens that a document may list and that are read from it in full. -/
structure Admits (ts : List SlottedToken) : Prop where
  sound : ∀ t ∈ ts, Sound t.token
  bounded : ∀ t ∈ ts, Bounded t.token
  inOrder : InOrder (ts.map (·.token.position))

/-- The fields of a token, of which the slot may be missing. -/
theorem fields?_tokenToJson (t : SlottedToken) :
    (tokenToJson t).fields? ["kind", "text", "line", "column", "slot"] =
      some [some (.text t.token.kind.word), some (.text t.token.text),
        some (.nat t.token.position.line), some (.nat t.token.position.column),
        t.slot.map fun slot => .text slot.word] := by
  obtain ⟨t, slot⟩ := t
  cases slot <;> simp [tokenToJson, Json.record, Json.fields?]

theorem tokenOfJson?_tokenToJson {t : SlottedToken} (h : Bounded t.token) :
    tokenOfJson? (tokenToJson t) = some t := by
  have hslot : Json.optional? (fun v => v.word?.bind Slot.ofWord?)
      (t.slot.map fun slot => Json.text slot.word) = some t.slot := by
    cases t.slot with
    | none => rfl
    | some slot => 
      show ((some slot.word).bind Slot.ofWord?).map some = some (some slot)
      rw [Option.bind_some, Slot.ofWord?_word]
      rfl
  rw [tokenOfJson?, fields?_tokenToJson]
  simp [hslot, Json.nat64?_nat h.1, Json.nat64?_nat h.2, TokenKind.ofWord?_word]

theorem mapM_tokenOfJson? {ts : List SlottedToken} (h : ∀ t ∈ ts, Bounded t.token) :
    (ts.map tokenToJson).mapM tokenOfJson? = some ts := by
  induction ts with
  | nil => rfl
  | cons t ts ih =>
    obtain ⟨ht, hts⟩ := List.forall_mem_cons.mp h
    rw [List.map_cons, List.mapM_cons, tokenOfJson?_tokenToJson ht, ih hts]
    rfl

/-- The fields of a document, of which the unit may be missing. -/
theorem fields?_toJson (d : Document) :
    d.toJson.fields? ["unit", "tokens"] =
      some [d.unit.map .text, some (.array (d.tokens.map tokenToJson))] := by
  obtain ⟨unit, tokens⟩ := d
  cases unit <;> simp [toJson, Json.record, Json.fields?]

theorem ofJson?_toJson {d : Document} (h : ∀ t ∈ d.tokens, Bounded t.token) :
    ofJson? d.toJson = some d := by
  have hunit : Json.optional? Json.text? (d.unit.map .text) = some d.unit := by
    cases d.unit <;> rfl
  rw [ofJson?, fields?_toJson]
  simp [hunit, Json.items?, mapM_tokenOfJson? h]

/-! ### The text -/

theorem plain_tokenToJson (t : SlottedToken) : (tokenToJson t).Plain := by
  refine .record fun f hf => ?_
  simp only [List.mem_append, List.mem_cons, List.not_mem_nil, or_false, Option.mem_toList,
    Option.map_eq_some_iff] at hf
  rcases hf with (rfl | rfl | rfl | rfl) | ⟨slot, -, rfl⟩
  · exact .text _
  · exact .text _
  · exact .nat _
  · exact .nat _
  · exact .text _

theorem plain_toJson (d : Document) : d.toJson.Plain := by
  refine .record fun f hf => ?_
  simp only [List.mem_append, List.mem_singleton, Option.mem_toList,
    Option.map_eq_some_iff] at hf
  rcases hf with ⟨unit, -, rfl⟩ | rfl
  · exact .text unit
  · refine .array fun v hv => ?_
    obtain ⟨t, -, rfl⟩ := List.mem_map.mp hv
    exact plain_tokenToJson t

end Document

/-- A unit is read back from its document. -/
theorem CodeUnit.ofDocument_document {u : CodeUnit} (h : Document.Admits u.tokens)
    (fallback : String) :
    CodeUnit.ofDocument fallback u.document.toJson.pretty = .ok { u with notices := [] } := by
  have hread : Document.ofJson? u.document.toJson = some u.document :=
    Document.ofJson?_toJson h.bounded
  have hfault : Document.fault? none 0 u.document.tokens = none :=
    Document.fault?_eq_none_iff.mpr ⟨h.sound, h.inOrder⟩
  rw [CodeUnit.ofDocument, Json.parse?_pretty (Document.plain_toJson u.document), Option.bind_some,
    hread]
  dsimp only
  rw [Document.codeUnit, hfault]
  rfl

end WordRole
