import WordRole.Proofs.Analysis.Calls
import WordRole.Proofs.Classification.Rules

/-!
# Passes that agree

Two analyzers that judge alike may have found different words (`Analyzer.Agrees`).  What follows
then comes to the same for both (`Analyzer.pass_of_agrees`), so tokens may be replaced in the middle
of a unit where this leads to analyzers that agree (`Analyzer.run_of_agrees`).
-/

namespace WordRole

/-- A token that neither has a slot nor names constants. -/
structure SlottedToken.IsSilent (t : SlottedToken) : Prop where
  slot : t.slot = none
  interpolates : t.token.interpolates = false

namespace Analyzer

/-! ### One step -/

/-- Two analyzers with the same declarations, notices and fault. -/
structure Agrees (a b : Analyzer) : Prop where
  declared : b.declared = a.declared
  notices : b.findings.notices = a.findings.notices
  abort : b.abort = a.abort

section Agrees

variable {a b : Analyzer} (h : a.Agrees b)

include h

theorem agrees_declare (d : Declaration) : (a.declare d).Agrees (b.declare d) := by
  unfold declare
  rw [h.declared]
  cases a.declared.record d with
  | ok table => exact ⟨rfl, h.notices, h.abort⟩
  | error r => exact ⟨rfl, congrArg (· ++ [Notice.redeclared r]) h.notices, h.abort⟩

theorem agrees_add (t : Token) (r : Ruling) : (a.add t r).Agrees (b.add t r) := by
  unfold add
  cases r.declares with
  | none => exact ⟨h.declared, h.notices, h.abort⟩
  | some kind =>
    have hd := agrees_declare h ⟨t.name, kind, t.position⟩
    exact ⟨hd.declared, hd.notices, hd.abort⟩

theorem agrees_scanString (t : Token) : (a.scanString t).Agrees (b.scanString t) := by
  unfold scanString
  split
  · refine ⟨h.declared, ?_, h.abort⟩
    simp only [Findings.notice, h.declared, h.notices]
  · exact h

end Agrees

theorem Agrees.symm {a b : Analyzer} (h : a.Agrees b) : b.Agrees a :=
  ⟨h.declared.symm, h.notices.symm, h.abort.symm⟩

theorem Agrees.trans {a b c : Analyzer} (h : a.Agrees b) (h' : b.Agrees c) : a.Agrees c :=
  ⟨h'.declared.trans h.declared, h'.notices.trans h.notices, h'.abort.trans h.abort⟩

theorem step_of_slot_eq_none (a : Analyzer) {t : SlottedToken} (h : t.slot = none)
    (n : Option Token) :
    a.step t n = (none, { a.scanString t.token with previous := some t.token }) := by
  unfold step
  rw [h]

theorem step_of_classify {a : Analyzer} {t : SlottedToken} {slot : Slot} {n : Option Token}
    {r : Ruling} (hs : t.slot = some slot)
    (h : (a.occurrence t.token slot n).classify = .ok (some r)) :
    a.step t n =
      (some (.ok r.withRewrite), { a.add t.token r with previous := some t.token }) := by
  unfold occurrence at h
  simp [step, hs, visit, h]

theorem previous_step (a : Analyzer) (t : SlottedToken) (n : Option Token) :
    (a.step t n).2.previous = some t.token := by
  unfold step
  cases t.slot <;> rfl

/-- A word that declares nothing adds a classification and nothing else. -/
theorem agrees_step_of_declares {a : Analyzer} {t : SlottedToken} {n : Option Token}
    {c : Classification} (h : (a.step t n).1 = some (.ok c)) (hc : c.category.declares = none) :
    a.Agrees (a.step t n).2 := by
  obtain ⟨slot, r, hs, hr, rfl⟩ := exists_classify_of_step h
  have hnone : r.declares = none := (Occurrence.judged_of_classify hr).declares.trans hc
  have hadd : a.add t.token r =
      { a with findings := a.findings.add r }.log (.classified r) := by
    unfold add
    rw [hnone]
  rw [step_of_classify hs hr, hadd]
  exact ⟨rfl, rfl, rfl⟩

/-- A step at a token comes to the same for both, if the token has no slot or the one before it is
the same. -/
theorem step_of_agrees {a b : Analyzer} (h : a.Agrees b) {t : SlottedToken}
    (hp : t.slot = none ∨ b.previous = a.previous) (n : Option Token) :
    (b.step t n).1 = (a.step t n).1 ∧ (a.step t n).2.Agrees (b.step t n).2 := by
  cases hs : t.slot with
  | none =>
    have hscan := agrees_scanString h t.token
    rw [step_of_slot_eq_none a hs, step_of_slot_eq_none b hs]
    exact ⟨rfl, hscan.declared, hscan.notices, hscan.abort⟩
  | some slot =>
    have hprevious : b.previous = a.previous := hp.resolve_left (by simp [hs])
    simp only [step, hs, visit, hprevious, h.declared]
    split
    · rename_i r _
      have hadd := agrees_add h t.token r
      exact ⟨rfl, hadd.declared, hadd.notices, hadd.abort⟩
    · exact ⟨rfl, h.declared, h.notices, h.abort⟩
    · exact ⟨rfl, rfl, h.notices, rfl⟩

theorem step_of_silent (a : Analyzer) {t : SlottedToken} (h : t.IsSilent) (n : Option Token) :
    a.step t n = (none, { a with previous := some t.token }) := by
  rw [step_of_slot_eq_none a h.slot, scanString, h.interpolates]
  rfl

/-! ### A pass -/

theorem pass_singleton {a : Analyzer} (ha : a.abort = none) (next : Option Token)
    (t : SlottedToken) : a.pass next [t] = ((a.step t next).1.toList, (a.step t next).2) := by
  rw [pass_cons (n := next) ha next t [] rfl, pass_nil, List.append_nil]

theorem pass_of_agrees {a b : Analyzer} (h : a.Agrees b) {ts : List SlottedToken}
    (hp : ∀ t ∈ ts.head?, t.slot = none ∨ b.previous = a.previous) (next : Option Token) :
    (b.pass next ts).1 = (a.pass next ts).1 ∧ (a.pass next ts).2.Agrees (b.pass next ts).2 := by
  induction ts generalizing a b with
  | nil => exact ⟨rfl, h⟩
  | cons t ts ih =>
    by_cases ha : a.abort.isSome
    · rw [pass_of_abort ha, pass_of_abort (by rw [h.abort]; exact ha)]
      exact ⟨rfl, h⟩
    · have ha : a.abort = none := by simpa using ha
      obtain ⟨hitem, hstep⟩ := step_of_agrees h (hp t rfl) ((ts.head?.map (·.token)).or next)
      have hmore := ih hstep fun _ _ =>
        .inr ((previous_step b t _).trans (previous_step a t _).symm)
      rw [pass_cons ha next t ts rfl, pass_cons (h.abort.trans ha) next t ts rfl, hitem, hmore.1]
      exact ⟨rfl, hmore.2⟩

/-- Nothing comes of silent tokens. -/
theorem pass_of_silent {a : Analyzer} {ts : List SlottedToken} (h : ∀ t ∈ ts, t.IsSilent)
    (next : Option Token) : (a.pass next ts).1 = [] ∧ a.Agrees (a.pass next ts).2 := by
  induction ts generalizing a with
  | nil => exact ⟨rfl, rfl, rfl, rfl⟩
  | cons t ts ih =>
    by_cases ha : a.abort.isSome
    · rw [pass_of_abort ha]
      exact ⟨rfl, rfl, rfl, rfl⟩
    · have ha : a.abort = none := by simpa using ha
      obtain ⟨hitems, hagrees⟩ := ih (a := { a with previous := some t.token })
        fun u hu => h u (List.mem_cons_of_mem t hu)
      rw [pass_cons ha next t ts rfl, step_of_silent a (h t List.mem_cons_self), hitems]
      exact ⟨rfl, hagrees.declared, hagrees.notices, hagrees.abort⟩

/-- A token without a slot is judged without a look at the one that follows. -/
theorem pass_of_getLast? {ts : List SlottedToken} (h : ∀ t ∈ ts.getLast?, t.slot = none)
    (a : Analyzer) (n n' : Option Token) : a.pass n' ts = a.pass n ts := by
  induction ts generalizing a with
  | nil => rfl
  | cons t ts ih =>
    by_cases ha : a.abort.isSome
    · rw [pass_of_abort ha, pass_of_abort ha]
    · have ha : a.abort = none := by simpa using ha
      cases ts with
      | nil =>
        have hs : t.slot = none := h t rfl
        rw [pass_cons ha n' t [] rfl, pass_cons ha n t [] rfl, step_of_slot_eq_none a hs,
          step_of_slot_eq_none a hs]
        rfl
      | cons u us =>
        rw [List.getLast?_cons_cons] at h
        rw [pass_cons ha n' t (u :: us) rfl, pass_cons ha n t (u :: us) rfl, ih h]
        rfl

/-! ### The item of a token -/

/-- What the run over some tokens comes to at the one at an index. -/
def itemAt? (ts : List SlottedToken) (notices : List Notice) (i : Nat) : Option Item :=
  ((start ts notices).advance i).2.turn?.bind (·.1)

/-- What the run over some tokens has found before the one at an index. -/
def foundBefore (ts : List SlottedToken) (notices : List Notice) (i : Nat) : List Classification :=
  ((start ts notices).advance i).2.findings.classifications

section Item

variable (before : List SlottedToken) (t : SlottedToken) (after : List SlottedToken)
  (notices : List Notice)

theorem exists_advance_eq_withTokens :
    ∃ l, ((start (before ++ t :: after) notices).advance before.length).2 =
      ((start [] notices).pass (some t.token) before).2.withTokens l := by
  obtain ⟨l, hl⟩ := advance_before (toList_tokens_start (before ++ t :: after) notices)
  rw [pass_start []] at hl
  exact ⟨l, congrArg Prod.snd hl⟩

theorem foundBefore_append : foundBefore (before ++ t :: after) notices before.length =
    ((start [] notices).pass (some t.token) before).2.findings.classifications := by
  obtain ⟨l, hlast⟩ := exists_advance_eq_withTokens before t after notices
  unfold foundBefore
  rw [hlast]
  rfl

theorem itemAt?_append :
    let a := ((start [] notices).pass (some t.token) before).2
    itemAt? (before ++ t :: after) notices before.length =
      if a.abort.isSome then none else (a.step t (after.head?.map (·.token))).1 := by
  intro a
  obtain ⟨l, hlast⟩ := exists_advance_eq_withTokens before t after notices
  unfold itemAt?
  split
  · rename_i habort
    have hstop : (a.withTokens l).abort.isSome := habort
    rw [hlast, turn?_of_abort hstop]
    rfl
  · rename_i habort
    have hgoes : (a.withTokens l).abort = none := by simpa using habort
    have hrest : (a.withTokens l).tokens.toList = t :: after := by
      rw [← hlast, toList_tokens_of_abort (by rw [hlast]; exact hgoes), toList_tokens_start,
        List.drop_left]
    rw [hlast, turn?_of_cons hgoes hrest, withTokens_withTokens, step_withTokens]
    rfl

theorem step_of_itemAt? {before : List SlottedToken} {t : SlottedToken}
    {after : List SlottedToken} {notices : List Notice} {item : Item}
    (h : itemAt? (before ++ t :: after) notices before.length = some item) :
    let a := ((start [] notices).pass (some t.token) before).2
    a.abort = none ∧ (a.step t (after.head?.map (·.token))).1 = some item := by
  intro a
  rw [itemAt?_append] at h
  split at h
  · cases h
  · rename_i habort
    exact ⟨by simpa using habort, h⟩

end Item

/-! ### Runs -/

/-- The report on some tokens after others, by the analyzer between them. -/
theorem run_append (before mid : List SlottedToken) {n : Token}
    (hmid : mid.head?.map (·.token) = some n) (after : List SlottedToken) (notices : List Notice)
    (unit : String) (mode : Mode) :
    let a := ((start [] notices).pass (some n) before).2
    let b := (a.pass (after.head?.map (·.token)) mid).2
    (start (before ++ (mid ++ after)) notices).run unit mode =
      (b.pass none after).2.finish unit mode := by
  intro a b
  have hn : ((mid ++ after).head?.map (·.token)).or none = some n := by
    cases mid with
    | nil => cases hmid
    | cons u us => exact hmid
  rw [run_eq_finish_pass, pass_start [] (before ++ (mid ++ after)),
    pass_append _ none before (mid ++ after) hn, pass_append _ none mid after Option.or_none]
  rfl

/-- **Runs that agree.**  Where tokens in the middle of a unit are replaced by others, after which
the analyzer agrees with that after the first ones, the rest of the report is the same. -/
theorem run_of_agrees {before mid mid' after : List SlottedToken} {notices : List Notice}
    {a b b' : Analyzer} {n n' : Token} {items items' : List Item}
    (ha : ((start [] notices).pass (some n) before).2 = a)
    (ha' : ((start [] notices).pass (some n') before).2 = a)
    (hn : mid.head?.map (·.token) = some n) (hn' : mid'.head?.map (·.token) = some n')
    (hmid : a.pass (after.head?.map (·.token)) mid = (items, b))
    (hmid' : a.pass (after.head?.map (·.token)) mid' = (items', b'))
    (hagrees : b.Agrees b') (hafter : ∀ t ∈ after.head?, t.slot = none) (unit : String)
    (mode : Mode) :
    let report := (start (before ++ (mid ++ after)) notices).run unit mode
    let report' := (start (before ++ (mid' ++ after)) notices).run unit mode
    let more := classified (b.pass none after).1
    report.classifications = a.findings.classifications ++ (classified items ++ more) ∧
      report'.classifications = a.findings.classifications ++ (classified items' ++ more) ∧
      report'.notices = report.notices ∧ report'.abort = report.abort := by
  intro report report' more
  obtain ⟨hitems, hlast⟩ := pass_of_agrees hagrees (fun t ht => .inl (hafter t ht)) none
  have hreport : report = (b.pass none after).2.finish unit mode := by
    show (start (before ++ (mid ++ after)) notices).run unit mode = _
    rw [run_append before mid hn, ha, hmid]
  have hreport' : report' = (b'.pass none after).2.finish unit mode := by
    show (start (before ++ (mid' ++ after)) notices).run unit mode = _
    rw [run_append before mid' hn', ha', hmid']
  have hb : b.findings.classifications = a.findings.classifications ++ classified items := by
    have := classifications_pass a (after.head?.map (·.token)) mid
    rwa [hmid] at this
  have hb' : b'.findings.classifications = a.findings.classifications ++ classified items' := by
    have := classifications_pass a (after.head?.map (·.token)) mid'
    rwa [hmid'] at this
  rw [hreport, hreport']
  refine ⟨?_, ?_, hlast.notices, hlast.abort⟩
  · show (b.pass none after).2.findings.classifications = _
    rw [classifications_pass, hb, List.append_assoc]
  · show (b'.pass none after).2.findings.classifications = _
    rw [classifications_pass, hb', hitems, List.append_assoc]

end Analyzer

end WordRole
