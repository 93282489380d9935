import WordRole.Json.Lexeme

/-!
# Lexemes read back

A lexeme that is written is read again, whatever comes after it (`Lexeme.first?_text`).  Only a
number does not end by itself, so that what comes after it must not go on with it.

* `Lexeme.first?_quoted`: a string, escaped character by character;
* `Lexeme.isNumber_toString`: the digits of a natural number.
-/

namespace WordRole.Json.Lexeme

open Text (Cut)

/-! ### Strings -/

theorem stringParts?_letter {e c : Char} (he : e ≠ 'u') (hc : unescape? e = some c)
    (s : List Char) :
    stringParts? ('\\' :: e :: s) = (stringParts? s).map fun r => (.char c :: r.1, r.2) := by
  rw [stringParts?]
  · rw [hc]
    cases stringParts? s <;> rfl
  · intro _ _ _ _ _ h
    exact absurd h he

theorem stringParts?_number {a b c d : Char} {n : Nat} (h : hexValue4? a b c d = some n)
    (s : List Char) : stringParts? ('\\' :: 'u' :: a :: b :: c :: d :: s) =
      (stringParts? s).map fun r => (.unit n :: r.1, r.2) := by
  rw [stringParts?, h]
  cases stringParts? s <;> rfl

theorem stringParts?_plain {c : Char} (hq : c ≠ '"') (hb : c ≠ '\\') (hc : ¬c.toNat < 0x20)
    (s : List Char) :
    stringParts? (c :: s) = (stringParts? s).map fun r => (.char c :: r.1, r.2) := by
  rw [stringParts?]
  · rw [if_neg (by simp [hb]; omega)]
    cases stringParts? s <;> rfl
  · exact hq
  · intro _ _ _ _ _ h
    exact absurd h hb
  · intro _ _ h
    exact absurd h hb

theorem hexValue4?_of_lt : ∀ n < 0x20,
    hexValue4? '0' '0' (Nat.digitChar (n / 16)) (Nat.digitChar (n % 16)) = some n := by
  decide

theorem joined?_unit {c : Char} (hc : c.toNat < 0x20) (ps : List StringPart) :
    joined? (.unit c.toNat :: ps) = (joined? ps).map (c :: ·) := by
  have hh : isHighSurrogate c.toNat = false := by simp [isHighSurrogate]; omega
  have hl : isLowSurrogate c.toNat = false := by simp [isLowSurrogate]; omega
  rw [joined?.eq_def]
  simp only [hh, hl, Char.ofNat_toNat, Bool.false_eq_true, if_false]

/-- A character is written as a backslash and a letter, by its number, or as it is. -/
theorem escape_cases (c : Char) :
    (∃ e, escape c = ['\\', e] ∧ e ≠ 'u' ∧ unescape? e = some c) ∨
    (escape c = ['\\', 'u', '0', '0', Nat.digitChar (c.toNat / 16), Nat.digitChar (c.toNat % 16)] ∧
      c.toNat < 0x20) ∨
    (escape c = [c] ∧ c ≠ '"' ∧ c ≠ '\\' ∧ ¬c.toNat < 0x20) := by
  unfold escape
  -- the characters that have a letter, one after the other
  iterate 7
    split
    · subst_vars
      exact .inl ⟨_, rfl, by decide, rfl⟩
  rename_i hq hb _ _ _ _ _
  split
  · rename_i hc
    exact .inr (.inl ⟨rfl, hc⟩)
  · rename_i hc
    exact .inr (.inr ⟨rfl, hq, hb, hc⟩)

/-- An escaped character is read as one part, which stands for the character. -/
theorem stringParts?_escape (c : Char) (s : List Char) :
    ∃ p, stringParts? (escape c ++ s) = (stringParts? s).map (fun r => (p :: r.1, r.2)) ∧
      ∀ ps, joined? (p :: ps) = (joined? ps).map (c :: ·) := by
  obtain ⟨e, he, hu, hc⟩ | ⟨he, hc⟩ | ⟨he, hq, hb, hc⟩ := escape_cases c
  · rw [he]
    exact ⟨.char c, stringParts?_letter hu hc s, fun _ => rfl⟩
  · rw [he]
    exact ⟨.unit c.toNat, stringParts?_number (hexValue4?_of_lt c.toNat hc) s, joined?_unit hc⟩
  · rw [he]
    exact ⟨.char c, stringParts?_plain hq hb hc s, fun _ => rfl⟩

theorem stringParts?_escaped (cs rest : List Char) :
    ∃ parts, stringParts? (cs.flatMap escape ++ '"' :: rest) = some (parts, rest) ∧
      joined? parts = some cs := by
  induction cs with
  | nil => exact ⟨[], rfl, rfl⟩
  | cons c cs ih =>
    obtain ⟨parts, hparts, hjoined⟩ := ih
    obtain ⟨p, hp, hc⟩ := stringParts?_escape c (cs.flatMap escape ++ '"' :: rest)
    refine ⟨p :: parts, ?_, ?_⟩
    · rw [List.flatMap_cons, List.append_assoc, hp, hparts]
      rfl
    · rw [hc, hjoined]
      rfl

theorem first?_quoted (text : Option String) (rest : List Char) :
    first? (quoted text ++ rest) = some (.string text, rest) := by
  cases text with
  | none => rfl
  | some s =>
    obtain ⟨parts, hparts, hjoined⟩ := stringParts?_escaped s.toList rest
    rw [quoted, List.cons_append, List.cons_append, List.append_assoc, first?]
    show (stringParts? (s.toList.flatMap escape ++ '"' :: rest)).map _ = _
    rw [hparts, Option.map_some, hjoined, Option.map_some, String.ofList_toList]

/-! ### Numbers -/

/-- whether a character goes on with a number that it stands after -/
def continuesNumber (c : Char) : Bool := c.isDigit || c = '.' || c = 'e' || c = 'E'

/-- Whether characters are a number, and are read as one before anything that does not go on with
it. -/
def IsNumber (literal : List Char) : Prop :=
  ∀ rest : List Char, (∀ c ∈ rest.head?, continuesNumber c = false) →
    number? (literal ++ rest) = some (literal, rest)

section Digits

variable {ds rest : List Char} (hd : ∀ d ∈ ds, d.isDigit = true)
  (hr : ∀ c ∈ rest.head?, continuesNumber c = false)

include hr in
theorem ends_number {c : Char} {cs : List Char} (h : rest = c :: cs) :
    c.isDigit = false ∧ c ≠ '.' ∧ c ≠ 'e' ∧ c ≠ 'E' := by
  subst h
  have hc := hr c rfl
  simp only [continuesNumber, Bool.or_eq_false_iff, decide_eq_false_iff_not] at hc
  obtain ⟨⟨⟨hdigit, hpoint⟩, he⟩, hE⟩ := hc
  exact ⟨hdigit, hpoint, he, hE⟩

include hd hr in
theorem span_isDigit : Cut.span Char.isDigit (ds ++ rest) = ⟨ds, rest⟩ := by
  unfold Cut.span
  rw [List.takeWhile_append_of_pos hd, List.dropWhile_append_of_pos hd]
  cases rest with
  | nil => simp
  | cons c cs =>
    have hc := (ends_number hr rfl).1
    simp [hc]

include hr in
theorem fractionPart_eq_nothing : fractionPart rest = .nothing rest := by
  unfold fractionPart
  split
  · exact absurd rfl (ends_number hr rfl).2.1
  · rfl

include hr in
theorem exponentPart_eq_nothing : exponentPart rest = .nothing rest := by
  unfold exponentPart
  split
  · rename_i e cs
    obtain ⟨-, -, he, hE⟩ := ends_number hr rfl
    rw [if_neg (by simp [he, hE])]
  · rfl

include hd hr in
theorem unsigned_digits (hz : ds.head? = some '0' → ds = ['0']) :
    unsigned (ds ++ rest) = ⟨ds, rest⟩ := by
  have hi : integerPart (ds ++ rest) = ⟨ds, rest⟩ := by
    unfold integerPart
    split
    · rename_i cs heq
      cases ds with
      | nil =>
        -- what follows is no digit
        have := (ends_number hr heq).1
        cases this
      | cons d ds =>
        obtain ⟨rfl, htail⟩ := List.cons.inj heq
        rw [hz rfl, ← htail, (List.cons.inj (hz rfl)).2]
        rfl
    · exact span_isDigit hd hr
  have hf : (Cut.mk ds rest).andThen fractionPart = ⟨ds, rest⟩ := by
    rw [Cut.andThen, fractionPart_eq_nothing hr]
    simp [Cut.after, Cut.nothing]
  rw [unsigned, hi, hf, Cut.andThen, exponentPart_eq_nothing hr]
  simp [Cut.after, Cut.nothing]

end Digits

/-- The digits of a number do not start with a zero, unless that is the number. -/
theorem head?_toDigits_ne {n : Nat} (h : 0 < n) : (Nat.toDigits 10 n).head? ≠ some '0' := by
  induction n using Nat.strongRecOn with
  | ind n ih =>
    rw [Nat.toDigits_eq_if (by decide)]
    split
    · simp
      omega
    · have := ih (n / 10) (by omega) (by omega)
      cases hd : Nat.toDigits 10 (n / 10) with
      | nil => exact absurd hd Nat.toDigits_ne_nil
      | cons d ds => rwa [hd] at this

theorem isNumber_toString (n : Nat) : IsNumber (toString n).toList := by
  intro rest hr
  rw [Nat.toString_eq_ofList_toDigits, String.toList_ofList]
  have hd : ∀ d ∈ Nat.toDigits 10 n, d.isDigit = true :=
    fun d hd => Nat.isDigit_of_mem_toDigits (by decide) (by decide) hd
  have hz : (Nat.toDigits 10 n).head? = some '0' → Nat.toDigits 10 n = ['0'] := by
    intro hz
    rcases Nat.eq_zero_or_pos n with rfl | hn
    · rfl
    · exact absurd hz (head?_toDigits_ne hn)
  have hcut := unsigned_digits hd hr hz
  cases hl : Nat.toDigits 10 n with
  | nil => exact absurd hl Nat.toDigits_ne_nil
  | cons d ds =>
    rw [hl] at hcut hd
    have hdigit := hd d List.mem_cons_self
    rw [List.cons_append] at hcut ⊢
    rw [number?, if_pos hdigit, hcut]
    rintro c cs rfl
    cases hdigit

theorem first?_of_number? {s literal rest : List Char} (h : number? s = some (literal, rest)) :
    first? s = some (.number literal, rest) := by
  unfold first?
  split
  case h_11 => rw [h]; rfl
  all_goals
    -- no number starts with a mark, a letter or a quote
    simp [number?] at h

/-! ### Every lexeme -/

/-- No lexeme starts with white space. -/
theorem not_isSpace_of_first? {c : Char} {cs rest : List Char} {l : Lexeme}
    (h : first? (c :: cs) = some (l, rest)) : isSpace c = false := by
  rw [Bool.eq_false_iff]
  intro hc
  simp only [isSpace, Bool.or_eq_true, decide_eq_true_eq] at hc
  have hnone : first? (c :: cs) = none := by
    rcases hc with ((rfl | rfl) | rfl) | rfl <;> rfl
  rw [hnone] at h
  cases h

/-- Whether a lexeme is read again as it is written, which a number need not be. -/
def Plain : Lexeme → Prop
  | number literal => IsNumber literal
  | _ => True

/-- whether a lexeme ends by itself, or before something else that does not go on with it -/
def EndsBefore (l : Lexeme) (rest : List Char) : Prop :=
  ∀ literal, l = .number literal → ∀ c ∈ rest.head?, continuesNumber c = false

theorem first?_text {l : Lexeme} (h : l.Plain) {rest : List Char} (hr : l.EndsBefore rest) :
    first? (l.text ++ rest) = some (l, rest) := by
  cases l with
  | number literal => exact first?_of_number? (h rest (hr literal rfl))
  | string text => exact first?_quoted text rest
  | bool b => cases b <;> rfl
  | _ => rfl

end WordRole.Json.Lexeme
