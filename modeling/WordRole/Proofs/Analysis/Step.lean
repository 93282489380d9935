import WordRole.Proofs.Analysis.Pass

/-!
# What a step does

A step does one of four things, told by the slot of its token and by what the rules say of it
(`Analyzer.step_cases`).  From this:

* `classifications_pass`: a report holds the classifications among the items, in order;
* `exists_step_of_run`: every classification of a report comes from the step at one of the tokens,
  and those before it from the tokens before;
* `isSome_abort_pass_iff`: a pass ends in a fault just when some token has one in its place.
-/

namespace WordRole

namespace Analyzer

/-! ### The four kinds of steps -/

/-- a token as the rules see it after those before it -/
def occurrence (a : Analyzer) (t : Token) (slot : Slot) (next : Option Token) : Occurrence :=
  ⟨t, slot, a.previous, next, a.declared⟩

theorem step_cases (a : Analyzer) (t : SlottedToken) (n : Option Token) :
    (t.slot = none ∧
      a.step t n = (none, { a.scanString t.token with previous := some t.token })) ∨
    (∃ slot r, t.slot = some slot ∧ (a.occurrence t.token slot n).classify = .ok (some r) ∧
      a.step t n =
        (some (.ok r.withRewrite), { a.add t.token r with previous := some t.token })) ∨
    (∃ slot, t.slot = some slot ∧ (a.occurrence t.token slot n).classify = .ok none ∧
      a.step t n = (none, { a.log (.idle slot t.token) with previous := some t.token })) ∨
    (∃ slot e, t.slot = some slot ∧ (a.occurrence t.token slot n).classify = .error e ∧
      a.step t n = (some (.error e),
        { { a with abort := some e }.log (.aborted e) with previous := some t.token })) := by
  cases hs : t.slot with
  | none => exact .inl ⟨rfl, by simp [step, hs]⟩
  | some slot =>
    cases hc : (a.occurrence t.token slot n).classify with
    | error e =>
      unfold occurrence at hc
      exact .inr (.inr (.inr ⟨slot, e, rfl, hc, by simp [step, hs, visit, hc]⟩))
    | ok r =>
      unfold occurrence at hc
      cases r with
      | none => exact .inr (.inr (.inl ⟨slot, rfl, hc, by simp [step, hs, visit, hc]⟩))
      | some r => exact .inr (.inl ⟨slot, r, rfl, hc, by simp [step, hs, visit, hc]⟩)

theorem exists_classify_of_step {a : Analyzer} {t : SlottedToken} {n : Option Token}
    {c : Classification} (h : (a.step t n).1 = some (.ok c)) :
    ∃ slot r, t.slot = some slot ∧ (a.occurrence t.token slot n).classify = .ok (some r) ∧
      c = r.withRewrite := by
  obtain ⟨-, hs⟩ | ⟨slot, r, hslot, hr, hs⟩ | ⟨slot, -, -, hs⟩ | ⟨slot, e, -, -, hs⟩ :=
    a.step_cases t n <;> rw [hs] at h
  · cases h
  · cases h
    exact ⟨slot, r, hslot, hr, rfl⟩
  · cases h
  · cases h

/-! ### What is found -/

def classified (items : List Item) : List Classification := items.filterMap Except.toOption

@[simp] theorem classified_nil : classified [] = [] := rfl

@[simp] theorem classified_ok (c : Classification) (items : List Item) :
    classified (.ok c :: items) = c :: classified items := rfl

@[simp] theorem classified_error (e : InvalidComparator) (items : List Item) :
    classified (.error e :: items) = classified items := rfl

theorem classified_append (items more : List Item) :
    classified (items ++ more) = classified items ++ classified more := List.filterMap_append

@[simp] theorem classifications_declare (a : Analyzer) (d : Declaration) :
    (a.declare d).findings.classifications = a.findings.classifications := by
  unfold declare
  cases a.declared.record d <;> rfl

@[simp] theorem classifications_add (a : Analyzer) (t : Token) (r : Ruling) :
    (a.add t r).findings.classifications = a.findings.classifications ++ [r.withRewrite] := by
  unfold add
  cases r.declares with
  | none => rfl
  | some kind => exact congrArg (· ++ [r.withRewrite]) (classifications_declare a _)

@[simp] theorem classifications_scanString (a : Analyzer) (t : Token) :
    (a.scanString t).findings.classifications = a.findings.classifications := by
  unfold scanString
  split <;> rfl

theorem classifications_step (a : Analyzer) (t : SlottedToken) (n : Option Token) :
    (a.step t n).2.findings.classifications =
      a.findings.classifications ++ classified (a.step t n).1.toList := by
  obtain ⟨-, h⟩ | ⟨slot, c, -, -, h⟩ | ⟨slot, -, -, h⟩ | ⟨slot, e, -, -, h⟩ := a.step_cases t n <;>
    rw [h]
  · simp
  · simp
  · simp [log]
  · simp [log]

theorem classifications_pass (a : Analyzer) (next : Option Token) (ts : List SlottedToken) :
    (a.pass next ts).2.findings.classifications =
      a.findings.classifications ++ classified (a.pass next ts).1 := by
  induction ts generalizing a with
  | nil => simp
  | cons t ts ih =>
    by_cases ha : a.abort.isSome
    · simp [pass_of_abort ha]
    · have ha : a.abort = none := by simpa using ha
      rw [pass_cons ha next t ts rfl]
      simp only [ih, classifications_step, classified_append, List.append_assoc]

/-! ### Where a classification comes from -/

theorem exists_step_of_items {a : Analyzer} {next : Option Token} {ts : List SlottedToken}
    {pre post : List Classification} {c : Classification}
    (h : classified (a.pass next ts).1 = pre ++ c :: post) :
    ∃ before t after, ts = before ++ t :: after ∧
      classified (a.pass (some t.token) before).1 = pre ∧
      (a.pass (some t.token) before).2.abort = none ∧
      ((a.pass (some t.token) before).2.step t ((after.head?.map (·.token)).or next)).1 =
        some (.ok c) := by
  induction ts generalizing a pre with
  | nil => simp at h
  | cons t ts ih =>
    by_cases ha : a.abort.isSome
    · simp [pass_of_abort ha] at h
    have ha : a.abort = none := by simpa using ha
    -- the classification of a later token, where this one adds `first` to those before it
    have later : ∀ first rest : List Classification,
        classified (a.step t ((ts.head?.map (·.token)).or next)).1.toList = first →
        classified ((a.step t ((ts.head?.map (·.token)).or next)).2.pass next ts).1 =
          rest ++ c :: post → first ++ rest = pre →
        ∃ before u after, t :: ts = before ++ u :: after ∧
          classified (a.pass (some u.token) before).1 = pre ∧
          (a.pass (some u.token) before).2.abort = none ∧
          ((a.pass (some u.token) before).2.step u ((after.head?.map (·.token)).or next)).1 =
            some (.ok c) := by
      intro first rest hf hr hp
      obtain ⟨before, u, after, rfl, hb, hu, hs⟩ := ih hr
      have hn : (before.head?.map (·.token)).or (some u.token) =
          ((before ++ u :: after).head?.map (·.token)).or next := by
        cases before <;> simp
      refine ⟨t :: before, u, after, rfl, ?_, ?_, ?_⟩ <;> rw [pass_cons ha _ t before hn]
      · rw [classified_append, hf, hb, hp]
      · exact hu
      · exact hs
    rw [pass_cons ha next t ts rfl, classified_append] at h
    rcases hi : (a.step t ((ts.head?.map (·.token)).or next)).1 with _ | e | d
    · rw [hi] at h
      exact later [] pre (by rw [hi]; rfl) h rfl
    · rw [hi] at h
      exact later [] pre (by rw [hi]; rfl) h rfl
    · rw [hi] at h
      cases pre with
      | nil =>
        obtain ⟨rfl, -⟩ := List.cons.inj h
        exact ⟨[], t, ts, rfl, rfl, ha, hi⟩
      | cons p pre =>
        obtain ⟨rfl, hr⟩ := List.cons.inj h
        exact later [d] pre (by rw [hi]; rfl) hr rfl

/-! ### Reports -/

theorem classifications_run (ts : List SlottedToken) (notices : List Notice) (unit : String)
    (mode : Mode) : ((start ts notices).run unit mode).classifications =
      classified ((start ts notices).pass none ts).1 := by
  rw [run_eq_finish_pass]
  exact classifications_pass (start ts notices) none ts

/-- A classification of a report is given at a token, when those before it have been found. -/
theorem exists_step_of_run {ts : List SlottedToken} {notices : List Notice} {unit : String}
    {mode : Mode} {pre post : List Classification} {c : Classification}
    (h : ((start ts notices).run unit mode).classifications = pre ++ c :: post) :
    ∃ before t after, ts = before ++ t :: after ∧
      ((start ts notices).pass (some t.token) before).2.findings.classifications = pre ∧
      (((start ts notices).pass (some t.token) before).2.step t
        (after.head?.map (·.token))).1 = some (.ok c) := by
  rw [classifications_run] at h
  obtain ⟨before, t, after, hts, hb, -, hc⟩ := exists_step_of_items h
  rw [Option.or_none] at hc
  refine ⟨before, t, after, hts, ?_, hc⟩
  rw [classifications_pass, hb]
  rfl

/-! ### The fault -/

@[simp] theorem abort_declare (a : Analyzer) (d : Declaration) :
    (a.declare d).abort = a.abort := by
  unfold declare
  cases a.declared.record d <;> rfl

@[simp] theorem abort_add (a : Analyzer) (t : Token) (r : Ruling) :
    (a.add t r).abort = a.abort := by
  unfold add
  cases r.declares with
  | none => rfl
  | some kind => exact abort_declare a _

@[simp] theorem abort_scanString (a : Analyzer) (t : Token) :
    (a.scanString t).abort = a.abort := by
  unfold scanString
  split <;> rfl

end Analyzer

/-- whether a token stands in the place of a comparator and cannot be one -/
def SlottedToken.isFault (t : SlottedToken) : Bool :=
  t.slot = some .orderingComparator &&
    !(t.token.isDelimiter "\x7b" || t.token.isScalarVariable || t.token.isBareword)

theorem Occurrence.classify_eq_error_iff {o : Occurrence} {e : InvalidComparator} :
    o.classify = .error e ↔
      (SlottedToken.mk o.token (some o.slot)).isFault = true ∧
        e = ⟨o.token.text, o.token.position⟩ := by
  unfold classify comparator SlottedToken.isFault
  by_cases hs : o.slot = .orderingComparator
  · rw [if_pos hs]
    by_cases hd : (o.token.isDelimiter "\x7b" || o.token.isScalarVariable) = true
    · simp [hd]
    · by_cases hb : o.token.isBareword = true
      · simp [hd, hb]
      · simp [hs, hd, hb, eq_comm]
  · simp only [if_neg hs]
    split
    · simp [hs]
    · split <;> simp [hs]

namespace Analyzer

theorem abort_step {a : Analyzer} (ha : a.abort = none) (t : SlottedToken) (n : Option Token) :
    (a.step t n).2.abort =
      if t.isFault then some ⟨t.token.text, t.token.position⟩ else none := by
  obtain ⟨hs, h⟩ | ⟨slot, c, hs, hc, h⟩ | ⟨slot, hs, hc, h⟩ | ⟨slot, e, hs, hc, h⟩ :=
    a.step_cases t n <;> rw [h]
  · simp [SlottedToken.isFault, hs, ha]
  all_goals
    have hf : ∀ e, (a.occurrence t.token slot n).classify = .error e ↔
        t.isFault = true ∧ e = ⟨t.token.text, t.token.position⟩ := fun e => by
      rw [Occurrence.classify_eq_error_iff, occurrence, ← hs]
    rw [hc] at hf
  · have hf : t.isFault = false := by simpa using hf ⟨t.token.text, t.token.position⟩
    simp [hf, ha]
  · have hf : t.isFault = false := by simpa using hf ⟨t.token.text, t.token.position⟩
    simp [hf, ha, log]
  · obtain ⟨hfault, rfl⟩ := (hf e).mp rfl
    simp [hfault, log]

theorem isSome_abort_pass_iff {a : Analyzer} (ha : a.abort = none) (next : Option Token)
    (ts : List SlottedToken) :
    (a.pass next ts).2.abort.isSome ↔ ∃ t ∈ ts, t.isFault = true := by
  induction ts generalizing a with
  | nil => simp [ha]
  | cons t ts ih =>
    rw [pass_cons ha next t ts rfl]
    have hs := abort_step ha t ((ts.head?.map (·.token)).or next)
    by_cases hf : t.isFault = true
    · rw [if_pos hf] at hs
      rw [pass_of_abort (by rw [hs]; rfl)]
      simp [hs, hf]
    · rw [if_neg hf] at hs
      simp [ih hs, hf]

end Analyzer

end WordRole
