import WordRole.Proofs.Analysis.Agreement
import WordRole.Proofs.Analysis.Consistency
import WordRole.Proofs.Text.Runs

/-!
# Constants in strings

A string that replaces variables does not replace constants, so a run gives a notice of each one
that is named in it.

* `areWords_eraseDups`: the names found in a text are the words of it that pass a test, each once,
  in the order of the text;
* `Analyzer.notices_run`: the notices of a report are those of its tokens, one token after the
  other;
* `Analyzer.constants_noticed`: at each token the notices are those of its constants, or at most one
  of a repeated declaration.
-/

namespace WordRole

/-! ### The words of a text -/

/-- At a place of a text, there is a word: a run of letters, digits and underscores. -/
def WordAt (text : String) (i : Nat) (w : String) : Prop :=
  Text.RunAt (fun c => c.isAlphanum || c = '_') text.toList i w.toList

/-- Names are the words of a text with a property, each once, in the order of their first places. -/
structure AreWords (text : String) (P : String → Prop) (names : List String) : Prop where
  nodup : names.Nodup
  mem_iff : ∀ w, w ∈ names ↔ (∃ i, WordAt text i w) ∧ P w
  inOrder : names.Pairwise fun u w => ∃ i, WordAt text i u ∧ ∀ j, WordAt text j w → i < j

def placedWords (text : String) : List (Nat × String) :=
  (Text.runsFrom isNameChar 0 text.toList).map fun q => (q.1, String.ofList q.2)

theorem mem_placedWords_iff {text : String} {i : Nat} {w : String} :
    (i, w) ∈ placedWords text ↔ WordAt text i w := by
  have hrun : ∀ r, (i, r) ∈ Text.runsFrom isNameChar 0 text.toList ↔
      Text.RunAt isNameChar text.toList i r := fun r => by simp [Text.mem_runsFrom_iff]
  unfold placedWords WordAt
  rw [List.mem_map, ← isNameChar_eq, ← hrun]
  constructor
  · rintro ⟨⟨j, r⟩, hr, heq⟩
    obtain ⟨rfl, rfl⟩ := Prod.mk.inj heq
    simpa using hr
  · exact fun h => ⟨_, h, by simp⟩

theorem map_snd_placedWords (text : String) :
    (placedWords text).map (·.2) = Analyzer.wordsOf text := by
  rw [Analyzer.wordsOf, ← Text.map_snd_runsFrom isNameChar 0, placedWords, List.map_map,
    List.map_map]
  rfl

theorem pairwise_placedWords (text : String) : (placedWords text).Pairwise (·.1 < ·.1) :=
  List.Pairwise.map _ (fun _ _ h => h) (Text.pairwise_runsFrom isNameChar 0 text.toList)

/-- Of the words that pass a test the first ones are kept, in order. -/
theorem areWords_eraseDups (text : String) (p : String → Bool) :
    AreWords text (fun w => p w = true) (((Analyzer.wordsOf text).filter p).eraseDups) := by
  have hkept : ∀ i w, (i, w) ∈ (placedWords text).filter (p ·.2) ↔
      WordAt text i w ∧ p w = true := fun i w => by rw [List.mem_filter, mem_placedWords_iff]
  have hnames : (Analyzer.wordsOf text).filter p =
      ((placedWords text).filter (p ·.2)).map (·.2) := by
    rw [← map_snd_placedWords, List.filter_map]
    rfl
  have hmem : ∀ w, w ∈ ((Analyzer.wordsOf text).filter p).eraseDups ↔
      ∃ i, (i, w) ∈ (placedWords text).filter (p ·.2) := by
    intro w
    rw [hnames, List.mem_eraseDups, List.mem_map]
    constructor
    · rintro ⟨⟨i, u⟩, hu, rfl⟩
      exact ⟨i, hu⟩
    · rintro ⟨i, hi⟩
      exact ⟨_, hi, rfl⟩
  have hfirst := Text.pairwise_eraseDups _ ((pairwise_placedWords text).filter (p ·.2))
  rw [← hnames] at hfirst
  refine ⟨hfirst.imp And.left, fun w => ?_, hfirst.imp_of_mem ?_⟩
  · simp only [hmem, hkept, exists_and_right]
  · rintro u w - hw ⟨-, i, hi, hlt⟩
    obtain ⟨k, hk⟩ := (hmem w).mp hw
    refine ⟨i, ((hkept i u).mp hi).1, fun j hj => hlt j ?_⟩
    exact (hkept j w).mpr ⟨hj, ((hkept k w).mp hk).2⟩

/-- whether a token is a string without a slot that replaces variables by their values -/
def SlottedToken.isScanned (t : SlottedToken) : Bool := t.slot = none && t.token.interpolates

namespace Analyzer

/-! ### The notices of a step -/

/-- at most one notice is added, of a declaration repeated at a place -/
def AddsRedeclared (before after : List Notice) (position : Position) : Prop :=
  after = before ∨ ∃ r, r.position = position ∧ after = before ++ [Notice.redeclared r]

theorem addsRedeclared_declare (a : Analyzer) (d : Declaration) :
    AddsRedeclared a.findings.notices (a.declare d).findings.notices d.position := by
  unfold declare DeclarationTable.record
  cases a.declared.first? d.name d.kind with
  | none => exact .inl rfl
  | some first => exact .inr ⟨_, rfl, rfl⟩

theorem addsRedeclared_add (a : Analyzer) (t : Token) (r : Ruling) :
    AddsRedeclared a.findings.notices (a.add t r).findings.notices t.position := by
  unfold add
  cases r.declares with
  | none => exact .inl rfl
  | some kind => exact addsRedeclared_declare a ⟨t.name, kind, t.position⟩

theorem notices_step_of_isScanned (a : Analyzer) {t : SlottedToken} (h : t.isScanned = true)
    (n : Option Token) :
    (a.step t n).2.findings.notices = a.findings.notices ++
      (constantsIn a.declared t.token.text).map
        (Notice.constantInString · t.token.position) := by
  obtain ⟨hslot, hstring⟩ := (Bool.and_eq_true _ _).mp h
  rw [step_of_slot_eq_none a (of_decide_eq_true hslot), scanString, if_pos hstring]
  rfl

theorem addsRedeclared_step (a : Analyzer) {t : SlottedToken} (h : t.isScanned = false)
    (n : Option Token) :
    AddsRedeclared a.findings.notices (a.step t n).2.findings.notices t.token.position := by
  obtain ⟨hs, hstep⟩ | ⟨slot, r, -, -, hstep⟩ | ⟨slot, -, -, hstep⟩ | ⟨slot, e, -, -, hstep⟩ :=
    a.step_cases t n <;> rw [hstep]
  · have hstring : t.token.interpolates = false := by
      simpa [SlottedToken.isScanned, hs] using h
    exact .inl (by simp [scanString, hstring])
  · exact addsRedeclared_add a t.token r
  · exact .inl rfl
  · exact .inl rfl

/-! ### The notices of a run -/

/-- whether a run over some tokens comes to the one at an index -/
def visits (ts : List SlottedToken) (notices : List Notice) (i : Nat) : Bool :=
  ((start ts notices).advance i).2.turn?.isSome

/-- the notices that a run over some tokens adds at the one at an index -/
def noticesAt (ts : List SlottedToken) (notices : List Notice) (i : Nat) : List Notice :=
  ((start ts notices).advance (i + 1)).2.findings.notices.drop
    ((start ts notices).advance i).2.findings.notices.length

/-- A token before the one at an index is classified as the declaration of a constant. -/
def ConstantBefore (ts : List SlottedToken) (notices : List Notice) (i : Nat) (name : String) :
    Prop :=
  ∃ j < i, ∃ c, itemAt? ts notices j = some (.ok c) ∧ c.category = .constantDeclaration ∧
    c.name = name

theorem mem_classified_iff {items : List Item} {c : Classification} :
    c ∈ classified items ↔ .ok c ∈ items := by
  unfold classified
  rw [List.mem_filterMap]
  constructor
  · rintro ⟨item, hitem, hc⟩
    cases item with
    | error e => cases hc
    | ok d => exact Option.some.inj hc ▸ hitem
  · exact fun h => ⟨_, h, rfl⟩

section Run

variable (ts : List SlottedToken) (notices : List Notice)

theorem items_advance (n : Nat) :
    ((start ts notices).advance n).1 = (List.range n).filterMap (itemAt? ts notices) := by
  induction n with
  | zero => rfl
  | succ n ih =>
    rw [advance_add, ih, List.range_succ, List.filterMap_append]
    unfold itemAt?
    cases h : ((start ts notices).advance n).2.turn? with
    | none => simp [advance, h]
    | some turn =>
      obtain ⟨item, b⟩ := turn
      cases item <;> simp [advance, h]

theorem declares_advance_iff (n : Nat) (name : String) :
    Classification.Declares ((start ts notices).advance n).2.findings.classifications name
      .constant ↔ ConstantBefore ts notices n name := by
  have hfound : ∀ c, c ∈ ((start ts notices).advance n).2.findings.classifications ↔
      ∃ j < n, itemAt? ts notices j = some (.ok c) := by
    intro c
    have hnil : (start ts notices).findings.classifications = [] := rfl
    rw [classifications_advance, items_advance, hnil, List.nil_append]
    simp only [mem_classified_iff, List.mem_filterMap, List.mem_range]
  unfold Classification.Declares ConstantBefore
  simp only [hfound]
  constructor
  · rintro ⟨c, ⟨j, hj, hi⟩, hname, hcategory⟩
    exact ⟨j, hj, c, hi, hcategory, hname⟩
  · rintro ⟨j, hj, c, hi, hcategory, hname⟩
    exact ⟨c, ⟨j, hj, hi⟩, hname, hcategory⟩

theorem constantBefore_iff (n : Nat) (name : String) :
    (((start ts notices).advance n).2.declared.kindsOf name).contains .constant = true ↔
      ConstantBefore ts notices n name := by
  obtain ⟨l, hl⟩ := advance_eq_pass (toList_tokens_start ts notices) n
  have hrecorded : ((start ts notices).advance n).2.Recorded := by
    rw [hl]
    exact recorded_pass (recorded_start ts notices) _ _
  rw [← declares_advance_iff, ← Classification.isSome_declaredAt?_iff_declares, ← hrecorded,
    DeclarationTable.contains_kindsOf]

theorem notices_advance_eq (n : Nat) :
    ((start ts notices).advance n).2.findings.notices =
      notices ++ (List.range n).flatMap (noticesAt ts notices) := by
  induction n with
  | zero => simp [advance, start]
  | succ n ih =>
    have hprefix : ((start ts notices).advance n).2.findings.notices <+:
        ((start ts notices).advance (n + 1)).2.findings.notices := by
      rw [advance_add]
      exact notices_advance _ 1
    rw [List.range_succ, List.flatMap_append, ← List.append_assoc, ← ih, List.flatMap_singleton]
    exact (List.prefix_iff_eq_append.mp hprefix).symm

theorem notices_run (unit : String) (mode : Mode) :
    ((start ts notices).run unit mode).notices =
      notices ++ (List.range ts.length).flatMap (noticesAt ts notices) := by
  obtain ⟨l, hl⟩ := advance_eq_pass (toList_tokens_start ts notices) ts.length
  rw [List.getElem?_eq_none_iff.mpr (Nat.le_refl _), List.take_length] at hl
  rw [← notices_advance_eq, hl, run_eq_finish_pass]
  rfl

/-- What a run comes to at a token that it visits is the step there. -/
theorem exists_step_of_visits {i : Fin ts.length} (h : visits ts notices i = true) :
    ∃ n, ((start ts notices).advance (i + 1)).2.findings.notices =
      (((start ts notices).advance i).2.step ts[i] n).2.findings.notices := by
  obtain ⟨⟨item, b⟩, hturn⟩ := Option.isSome_iff_exists.mp h
  obtain ⟨t, rest, -, hrest, -, rfl⟩ := exists_step_of_turn? hturn
  have ht : ts[i] = t := by
    have hdrop := toList_tokens_advance (Option.ne_none_iff_exists'.mpr ⟨_, hturn⟩)
    rw [hrest, toList_tokens_start, List.drop_eq_getElem_cons i.isLt] at hdrop
    exact (List.cons.inj hdrop).1.symm
  refine ⟨rest.head?.map (·.token), ?_⟩
  rw [advance_add, ht]
  simp only [advance, hturn, findings_withTokens]

/-- **Constants in strings.**  The notices of a report are those that were there from the start, and
then those of the tokens, one after the other.  A string that is visited, has no slot and replaces
variables has, at its own place, one notice B0602 for each word of its text that a token before it
declares as a constant, in the order of the text and naming the word.  Any other token has at most
one notice, B0601 at its place for a declaration that is repeated; one that is not visited has
none. -/
theorem constants_noticed (unit : String) (mode : Mode) :
    ((start ts notices).run unit mode).notices =
      notices ++ (List.range ts.length).flatMap (noticesAt ts notices) ∧
    ∀ i : Fin ts.length,
      if visits ts notices i then
        if ts[i].isScanned then
          ∃ names, AreWords ts[i].token.text (ConstantBefore ts notices i) names ∧
            noticesAt ts notices i = names.map fun name =>
              { code := "B0602"
                severity := .warning
                message := s!"constant '{name}' is not interpolated inside this string; " ++
                  s!"concatenate it or write @\x7b[ {name} ]\x7d"
                position := ts[i].token.position }
        else
          noticesAt ts notices i = [] ∨ ∃ message,
            noticesAt ts notices i = [⟨"B0601", .info, message, ts[i].token.position⟩]
      else noticesAt ts notices i = [] := by
  refine ⟨notices_run ts notices unit mode, fun i => ?_⟩
  split
  · rename_i hvisits
    obtain ⟨n, hstep⟩ := exists_step_of_visits ts notices hvisits
    unfold noticesAt
    rw [hstep]
    split
    · rename_i hscanned
      rw [notices_step_of_isScanned _ hscanned, List.drop_left]
      have hwords := areWords_eraseDups ts[i].token.text fun w =>
        (((start ts notices).advance i).2.declared.kindsOf w).contains .constant
      simp only [constantBefore_iff] at hwords
      exact ⟨_, hwords, rfl⟩
    · rename_i hscanned
      rcases addsRedeclared_step ((start ts notices).advance i).2
        (Bool.eq_false_iff.mpr hscanned) n with heq | ⟨r, hr, heq⟩ <;> rw [heq]
      · exact .inl List.drop_length
      · exact .inr ⟨r.message, hr ▸ List.drop_left⟩
  · rename_i hvisits
    have hturn : ((start ts notices).advance i).2.turn? = none := by
      simpa [visits] using hvisits
    unfold noticesAt
    rw [advance_add, advance_of_turn?_none hturn]
    exact List.drop_length

end Run

end Analyzer

end WordRole
