import WordRole.Json.Parsed
import WordRole.Json.Written
import WordRole.Proofs.Json.Lexemes

/-!
# Values read back

A value that is written is read again (`parse?_pretty`), if its numbers are numbers.  Reading goes
lexeme by lexeme over the pieces that a value is laid out in:

* `Reading.run_flatMap`: the text of pieces is read as the pieces are, since nothing that may follow
  a number goes on with it;
* `feed_glyphs`: the pieces of a value complete it.
-/

namespace WordRole.Json

open WordRole.Json.Lexeme (IsNumber continuesNumber)

def Glyph.Plain : Glyph → Prop
  | .lexeme l => l.Plain
  | _ => True

namespace Reading

/-! ### Text and pieces -/

def feed (r : Reading) : List Glyph → Option Reading
  | [] => some r
  | .lexeme l :: gs => (r.next l).bind (·.feed gs)
  | .space :: gs | .line _ :: gs => r.feed gs

theorem run_of_isSpace (r : Reading) {c : Char} (h : Lexeme.isSpace c = true) (cs : List Char) :
    r.run (c :: cs) = r.run cs := by
  rw [run, if_pos h]

theorem run_spaces (r : Reading) (n : Nat) (cs : List Char) :
    r.run (List.replicate n ' ' ++ cs) = r.run cs := by
  induction n with
  | zero => rfl
  | succ n ih =>
    rw [List.replicate_succ, List.cons_append, run_of_isSpace r (by decide), ih]

theorem run_of_first? {r r' : Reading} {s rest : List Char} {l : Lexeme}
    (hl : Lexeme.first? s = some (l, rest)) (hr : r.next l = some r') : r.run s = r'.run rest := by
  cases s with
  | nil => cases hl
  | cons c cs =>
    have hc : ¬Lexeme.isSpace c = true := by simp [Lexeme.not_isSpace_of_first? hl]
    rw [run, if_neg hc]
    split
    · rename_i hnone
      rw [hl] at hnone
      cases hnone
    · rename_i hsome
      rw [hl] at hsome
      cases hsome
      rw [hr]

/-- A number completes a value. -/
theorem next_number {r r' : Reading} {literal : List Char}
    (h : r.next (.number literal) = some r') : ∃ stack, r' = completed (.number literal) stack := by
  cases r with
  | value stack => exact ⟨stack, (Option.some.inj h).symm⟩
  | arrayStart stack => exact ⟨.array [] :: stack, (Option.some.inj h).symm⟩
  | _ => cases h

/-- What may follow a value that is complete goes on with no number. -/
theorem head?_of_feed_completed {v : Json} {stack : List Frame} {gs : List Glyph} {r : Reading}
    (h : (completed v stack).feed gs = some r) :
    ∀ c ∈ (gs.flatMap Glyph.text).head?, continuesNumber c = false := by
  cases gs with
  | nil => nofun
  | cons g gs =>
    cases g with
    | space => rintro c ⟨⟩; rfl
    | line depth => rintro c ⟨⟩; rfl
    | lexeme l =>
      obtain ⟨r', hr, -⟩ := Option.bind_eq_some_iff.mp h
      have hl : l = .valueSeparator ∨ l = .endArray ∨ l = .endObject := by
        rcases stack with _ | ⟨_ | _, stack⟩ <;> cases l <;> simp [completed, next] at hr ⊢
      rcases hl with rfl | rfl | rfl <;> rintro c ⟨⟩ <;> rfl

theorem run_flatMap {r r' : Reading} {gs : List Glyph} (hp : ∀ g ∈ gs, g.Plain)
    (h : r.feed gs = some r') : r.run (gs.flatMap Glyph.text) = some r' := by
  induction gs generalizing r with
  | nil =>
    rw [List.flatMap_nil, run]
    exact h
  | cons g gs ih =>
    obtain ⟨hg, hgs⟩ := List.forall_mem_cons.mp hp
    rw [List.flatMap_cons]
    cases g with
    | space =>
      rw [Glyph.text, List.singleton_append, run_of_isSpace r (by decide)]
      exact ih hgs h
    | line depth =>
      rw [Glyph.text, List.cons_append, run_of_isSpace r (by decide), run_spaces]
      exact ih hgs h
    | lexeme l =>
      obtain ⟨q, hq, h⟩ := Option.bind_eq_some_iff.mp h
      have hend : l.EndsBefore (gs.flatMap Glyph.text) := by
        rintro literal rfl
        obtain ⟨stack, rfl⟩ := next_number hq
        exact head?_of_feed_completed h
      rw [Glyph.text, run_of_first? (Lexeme.first?_text hg hend) hq]
      exact ih hgs h

end Reading

/-! ### Pieces and values -/

open Reading

/-- No value starts with the end of an array. -/
theorem feed_arrayStart (stack : List Frame) (depth : Nat) (v : Json) (gs : List Glyph) :
    (arrayStart stack).feed (glyphs depth v ++ gs) =
      (value (.array [] :: stack)).feed (glyphs depth v ++ gs) := by
  cases v with
  | array vs => cases vs <;> rfl
  | object ms => cases ms <;> rfl
  | _ => rfl

mutual

theorem feed_glyphs (depth : Nat) (v : Json) (stack : List Frame) (gs : List Glyph) :
    (value stack).feed (glyphs depth v ++ gs) = (completed v stack).feed gs := by
  cases v with
  | null => rfl
  | bool b => rfl
  | number literal => rfl
  | string text => rfl
  | array vs =>
    cases vs with
    | nil => rfl
    | cons v vs =>
      have hv := feed_glyphs (depth + 1) v (.array [] :: stack)
      have hvs := feed_itemGlyphs (depth + 1) vs [v] stack
      simp only [glyphs, List.append_assoc, List.cons_append, List.nil_append, feed, next, begun,
        Option.bind_some]
      rw [feed_arrayStart, hv, completed, hvs]
      simp [feed, next]
  | object ms =>
    cases ms with
    | nil => rfl
    | cons m ms =>
      obtain ⟨name, v⟩ := m
      have hv := feed_glyphs (depth + 1) v (.object [] name :: stack)
      have hms := feed_memberGlyphs (depth + 1) ms [(name, v)] stack
      simp only [glyphs, List.append_assoc, List.cons_append, List.nil_append, feed, next, begun,
        Option.bind_some]
      rw [hv, completed, hms]
      simp [feed, next]

theorem feed_itemGlyphs (depth : Nat) (vs items : List Json) (stack : List Frame)
    (gs : List Glyph) : (afterItem items stack).feed (itemGlyphs depth vs ++ gs) =
      (afterItem (vs.reverse ++ items) stack).feed gs := by
  cases vs with
  | nil => rfl
  | cons v vs =>
    have hv := feed_glyphs depth v (.array items :: stack)
    have hvs := feed_itemGlyphs depth vs (v :: items) stack
    simp only [itemGlyphs, List.append_assoc, List.cons_append, List.nil_append, feed, next,
      Option.bind_some]
    rw [hv, completed, hvs]
    simp

theorem feed_memberGlyphs (depth : Nat) (ms members : List (Option String × Json))
    (stack : List Frame) (gs : List Glyph) :
    (afterMember members stack).feed (memberGlyphs depth ms ++ gs) =
      (afterMember (ms.reverse ++ members) stack).feed gs := by
  cases ms with
  | nil => rfl
  | cons m ms =>
    obtain ⟨name, v⟩ := m
    have hv := feed_glyphs depth v (.object members name :: stack)
    have hms := feed_memberGlyphs depth ms ((name, v) :: members) stack
    simp only [memberGlyphs, List.append_assoc, List.cons_append, List.nil_append, feed, next,
      Option.bind_some]
    rw [hv, completed, hms]
    simp

end

/-! ### Values -/

/-- A value whose numbers are numbers. -/
inductive Plain : Json → Prop where
  | null : Plain .null
  | bool (b : Bool) : Plain (.bool b)
  | number {literal : List Char} (h : IsNumber literal) : Plain (.number literal)
  | string (text : Option String) : Plain (.string text)
  | array {vs : List Json} (h : ∀ v ∈ vs, Plain v) : Plain (.array vs)
  | object {ms : List (Option String × Json)} (h : ∀ m ∈ ms, Plain m.2) : Plain (.object ms)

theorem plain_itemGlyphs {depth : Nat} {vs : List Json}
    (h : ∀ v ∈ vs, ∀ g ∈ glyphs depth v, g.Plain) : ∀ g ∈ itemGlyphs depth vs, g.Plain := by
  induction vs with
  | nil => nofun
  | cons v vs ih =>
    obtain ⟨hv, hvs⟩ := List.forall_mem_cons.mp h
    simpa [itemGlyphs, or_imp, forall_and, Glyph.Plain, Lexeme.Plain] using ⟨hv, ih hvs⟩

theorem plain_memberGlyphs {depth : Nat} {ms : List (Option String × Json)}
    (h : ∀ m ∈ ms, ∀ g ∈ glyphs depth m.2, g.Plain) : ∀ g ∈ memberGlyphs depth ms, g.Plain := by
  induction ms with
  | nil => nofun
  | cons m ms ih =>
    obtain ⟨hm, hms⟩ := List.forall_mem_cons.mp h
    simpa [memberGlyphs, or_imp, forall_and, Glyph.Plain, Lexeme.Plain] using ⟨hm, ih hms⟩

theorem Plain.glyphs {v : Json} (h : v.Plain) : ∀ depth, ∀ g ∈ v.glyphs depth, g.Plain := by
  induction h with
  | null => simp [Json.glyphs, Glyph.Plain, Lexeme.Plain]
  | bool b => simp [Json.glyphs, Glyph.Plain, Lexeme.Plain]
  | string text => simp [Json.glyphs, Glyph.Plain, Lexeme.Plain]
  | number h => simpa [Json.glyphs, Glyph.Plain, Lexeme.Plain] using h
  | @array vs _ ih =>
    intro depth
    cases vs with
    | nil => simp [Json.glyphs, Glyph.Plain, Lexeme.Plain]
    | cons v vs =>
      obtain ⟨hv, hvs⟩ := List.forall_mem_cons.mp ih
      have hitems := plain_itemGlyphs fun w hw => hvs w hw (depth + 1)
      simpa [Json.glyphs, or_imp, forall_and, Glyph.Plain, Lexeme.Plain] using
        ⟨hv (depth + 1), hitems⟩
  | @object ms _ ih =>
    intro depth
    cases ms with
    | nil => simp [Json.glyphs, Glyph.Plain, Lexeme.Plain]
    | cons m ms =>
      obtain ⟨hm, hms⟩ := List.forall_mem_cons.mp ih
      have hmembers := plain_memberGlyphs fun w hw => hms w hw (depth + 1)
      simpa [Json.glyphs, or_imp, forall_and, Glyph.Plain, Lexeme.Plain] using
        ⟨hm (depth + 1), hmembers⟩

theorem parse?_pretty {v : Json} (h : v.Plain) : parse? v.pretty = some v := by
  have hfeed := feed_glyphs 0 v [] []
  rw [List.append_nil] at hfeed
  have hrun := run_flatMap (h.glyphs 0) hfeed
  rw [parse?, pretty, String.toList_ofList, hrun]
  rfl

end WordRole.Json
