import WordRole.Proofs.Classification.Neighbours
import WordRole.Proofs.Report.Rewrites
import WordRole.Proofs.Slot.Starts

/-!
# Keys of subscripts

A word alone in a subscript is a string, and one after a mark there is evaluated, whatever the word
is and whatever is declared under its name (`CodeUnit.keys_of_subscripts`).

* `Slot.opensAfter_eq_subscript_iff`: which braces open a subscript;
* `Slot.startsSubscript_of_opensSubscript`: where the key of a subscript stands;
* `Analyzer.finds_key`: what the run comes to at a word that stands there.
-/

namespace WordRole

/-! ### Subscripts -/

namespace Slot

/-- Whether a brace that follows some tokens opens a subscript: after a variable, an arrow or a
closing bracket, or after the brace that closes a subscript, however many are chained. -/
inductive OpensSubscript : List Token → Prop
  | sigil {front : List Token} {t : Token} (h : t.hasSigil ['$', '@', '%'] = true) :
    OpensSubscript (front ++ [t])
  | arrow {front : List Token} {t : Token} (h : t.isMemberArrow = true) :
    OpensSubscript (front ++ [t])
  | bracket {front : List Token} {t : Token} (h : t.isDelimiter "]" = true) :
    OpensSubscript (front ++ [t])
  | chained {front body : List Token} {brace closing : Token} (h : OpensSubscript front)
    (hbrace : brace.isDelimiter "\x7b" = true) (hbody : Token.Matched body)
    (hclosing : closing.isDelimiter "\x7d" = true) :
    OpensSubscript (front ++ brace :: (body ++ [closing]))

/-- **Subscripts.**  A brace opens a subscript just after a variable, an arrow, a closing bracket or
another subscript. -/
theorem opensAfter_eq_subscript_iff {before : List Token} :
    opensAfter before = .subscript ↔ OpensSubscript before := by
  constructor
  · intro h
    induction hn : before.length using Nat.strongRecOn generalizing before with
    | ind n ih =>
    rcases List.eq_nil_or_concat before with rfl | ⟨front, last, rfl⟩
    · cases h
    rw [List.concat_eq_append] at h hn ⊢
    rw [opensAfter_concat, opened_eq_subscript_iff] at h
    rcases h with hsigil | harrow | hbracket | ⟨hclosing, hclosed⟩
    · exact .sigil hsigil
    · exact .arrow harrow
    · exact .bracket hbracket
    · rw [if_pos hclosing] at hclosed
      obtain ⟨front', brace, body, closing, hfront, hbrace, hbody, hclosing, hopens⟩ :=
        endsClosing_concat_iff.mpr ⟨hclosing, hclosed⟩
      rw [hfront] at hn ⊢
      refine .chained (ih front'.length ?_ hopens rfl) hbrace hbody hclosing
      rw [← hn, List.length_append, List.length_cons]
      omega
  · intro h
    induction h with
    | sigil h => exact (opensAfter_concat _ _).trans (opened_eq_subscript_iff.mpr (.inl h))
    | arrow h =>
      exact (opensAfter_concat _ _).trans (opened_eq_subscript_iff.mpr (.inr (.inl h)))
    | bracket h =>
      exact (opensAfter_concat _ _).trans
        (opened_eq_subscript_iff.mpr (.inr (.inr (.inl h))))
    | chained _ hbrace hbody hclosing ih =>
      exact (opensAfter_closing_iff _).mpr ⟨_, _, _, _, rfl, hbrace, hbody, hclosing, ih⟩ |>.2

/-- The key of a subscript stands after its brace, or after a mark that follows the brace. -/
theorem startsSubscript_of_opensSubscript {front : List Token} {brace : Token}
    (h : OpensSubscript front) (hbrace : brace.isDelimiter "\x7b" = true) :
    startsSubscript (front ++ [brace]) = true ∧
      ∀ mark : Token, mark.isOperator Token.evaluationMark = true →
        startsSubscript (front ++ [brace] ++ [mark]) = true := by
  have hopens := opensAfter_eq_subscript_iff.mpr h
  have hhead : (openedBraces (front ++ [brace])).head? = some .subscript := by
    rw [openedBraces_concat, if_pos hbrace, hopens]
    rfl
  refine ⟨?_, fun mark hmark => ?_⟩
  · simp [startsSubscript, hhead, Token.endOpening, hbrace]
  · have hdelimiter : ∀ d, mark.isDelimiter d = false := by
      simp [Token.isDelimiter, Token.kind_of_isOperator hmark]
    rw [startsSubscript, openedBraces_concat, if_neg (by simp [hdelimiter]),
      if_neg (by simp [hdelimiter]), hhead]
    simp [Token.endOpening, hmark, hbrace]

end Slot

/-- A word alone before a closing brace is the key of a subscript, reserved or not. -/
theorem SlotWalk.slot_of_key {before : List Token} {word closing : Token}
    (hstarts : Slot.startsSubscript before = true) (hword : word.isBareword = true)
    (hclosing : closing.isDelimiter "\x7d" = true) (rest : List Token) :
    (start.afterAll (word :: closing :: rest) before).slot word (closing :: rest) =
      some .containerKey := by
  have hinvoked : isInvoked (some closing) = false := by
    simp [isInvoked, Token.isMemberArrow, Token.not_isOperator_of_isDelimiter hclosing,
      Token.isNamespaceSeparator, Slot.not_isPunctuation_of_isDelimiter hclosing]
  have hkey : keySlot (word :: closing :: rest) = some .containerKey := by
    simp [keySlot, hword, hinvoked]
  have hpromise := (next_promise_eq_containerKey_iff before word (closing :: rest)).mpr
    ⟨hstarts, hkey⟩
  rw [slot, hpromise, Option.some_or]

/-! ### The word in the run -/

namespace Analyzer

/-- A pass that has not been stopped remembers its last token. -/
theorem previous_pass {a : Analyzer} {next : Option Token} {ts : List SlottedToken}
    {t : SlottedToken} (ht : ts.getLast? = some t) (h : (a.pass next ts).2.abort = none) :
    (a.pass next ts).2.previous = some t.token := by
  obtain ⟨init, rfl⟩ := List.getLast?_eq_some_iff.mp ht
  have hsplit := pass_append a next init [t] (n := some t.token) rfl
  rw [hsplit] at h ⊢
  by_cases hinit : (a.pass (some t.token) init).2.abort.isSome
  · rw [pass_of_abort hinit] at h
    exact absurd h (Option.isSome_iff_ne_none.mp hinit)
  · rw [pass_singleton (by simpa using hinit)]
    exact previous_step _ t next

/-- Unless it has been stopped before, the run over some tokens comes to a word at an index, with no
doubt of its category, and the report has this finding after those of the tokens before. -/
def Finds (tokens : List SlottedToken) (notices : List Notice) (i : Nat) (t : SlottedToken)
    (category : Category) : Prop :=
  tokens[i]? = some t ∧
    (((start tokens notices).advance i).2.abort = none →
      ∃ c : Classification, c.IsOf t ∧ c.category = category ∧ c.level = .unambiguous ∧
        itemAt? tokens notices i = some (.ok c) ∧
        ∀ unit mode, ∃ more, ((start tokens notices).run unit mode).classifications =
          foundBefore tokens notices i ++ c :: more)

/-- The step at a key asks for nothing but the tokens on both sides of it. -/
theorem exists_step_of_key {a : Analyzer} {t : SlottedToken} {previous closing : Token}
    (hslot : t.slot = some .containerKey) (hword : t.token.isBareword = true)
    (hprevious : a.previous = some previous) (hclosing : closing.isDelimiter "\x7d" = true) :
    ∃ c : Classification, (a.step t (some closing)).1 = some (.ok c) ∧
      c.category = (if previous.isOperator "+" then .evaluatedKey else .literalKey) ∧
      c.level = .unambiguous := by
  let o := a.occurrence t.token .containerKey (some closing)
  have hclassify : o.classify = .ok (some o.containerKey) :=
    Occurrence.classify_of_isBareword hword (by simp [o, occurrence]) (by simp [o, occurrence])
  have hcategory : o.containerKey.category =
      if previous.isOperator "+" then .evaluatedKey else .literalKey := by
    rw [Occurrence.category_containerKey]
    have hnext : o.nextIs (!·.endsKey) = false := by
      simp [o, occurrence, Occurrence.nextIs, Token.endsKey, hclosing]
    have hmark : o.previousIs (·.isOperator "+") = previous.isOperator "+" := by
      simp [o, occurrence, Occurrence.previousIs, hprevious]
    rw [hnext, hmark, Bool.or_false]
  have hlevel : o.containerKey.level = .unambiguous := by
    rw [(Occurrence.judged_containerKey o).level, hcategory]
    split <;> rfl
  -- a rewrite may be proposed, which changes neither of the two
  exact ⟨o.containerKey.withRewrite, by rw [step_of_classify hslot hclassify], hcategory, hlevel⟩

theorem finds_key {before : List Token} {previous word closing : Token}
    (hstarts : Slot.startsSubscript before = true) (hlast : before.getLast? = some previous)
    (hword : word.isBareword = true) (hclosing : closing.isDelimiter "\x7d" = true)
    (rest : List Token) (notices : List Notice) :
    Finds (SlottedToken.infer (before ++ word :: closing :: rest)) notices before.length
      ⟨word, some .containerKey⟩
      (if previous.isOperator "+" then .evaluatedKey else .literalKey) := by
  have hlength := SlotWalk.length_slotted SlotWalk.start (word :: closing :: rest) before
  have htokens := SlotWalk.map_token_slotted SlotWalk.start (word :: closing :: rest) before
  have hnext := SlotWalk.map_token_slotted ((SlotWalk.start.afterAll (word :: closing :: rest)
    before).after word (closing :: rest)) [] (closing :: rest)
  rw [SlotWalk.infer_append, SlotWalk.slot_of_key hstarts hword hclosing rest, ← hlength]
  generalize SlotWalk.start.slotted (word :: closing :: rest) before = us at htokens
  generalize SlotWalk.slotted _ [] (closing :: rest) = vs at hnext
  refine ⟨by simp, fun habort => ?_⟩
  let a := ((start [] notices).pass (some word) us).2
  obtain ⟨l, hl⟩ := exists_advance_eq_withTokens us ⟨word, some .containerKey⟩ vs notices
  have ha : a.abort = none := by
    rw [hl] at habort
    exact habort
  have hprevious : a.previous = some previous := by
    rw [← htokens, List.getLast?_map, Option.map_eq_some_iff] at hlast
    obtain ⟨u, hu, rfl⟩ := hlast
    exact previous_pass hu ha
  obtain ⟨c, hstep, hcategory, hlevel⟩ :=
    exists_step_of_key (t := ⟨word, some .containerKey⟩) rfl hword hprevious hclosing
  have hitem : itemAt? (us ++ ⟨word, some .containerKey⟩ :: vs) notices us.length =
      some (.ok c) := by
    rw [itemAt?_append, if_neg (Option.not_isSome_iff_eq_none.mpr ha), ← List.head?_map, hnext]
    exact hstep
  exact ⟨c, isOf_of_step ha hstep, hcategory, hlevel, hitem, exists_more_of_itemAt? hitem⟩

end Analyzer

namespace CodeUnit

/-- **Keys.**  Wherever a brace opens a subscript, a bareword between this brace and a closing one
is a string, and a bareword after a mark there is evaluated, reserved words included.  Whatever
constants, subroutines and packages are declared before, there is no doubt about it; only a fault
before the word keeps it from the report. -/
theorem keys_of_subscripts {front : List Token} {brace word closing : Token}
    (hfront : Slot.OpensSubscript front) (hbrace : brace.isDelimiter "\x7b" = true)
    (hword : word.isBareword = true) (hclosing : closing.isDelimiter "\x7d" = true)
    (rest : List Token) (notices : List Notice) :
    let key : SlottedToken := ⟨word, some .containerKey⟩
    Analyzer.Finds (SlottedToken.infer (front ++ brace :: word :: closing :: rest)) notices
      (front.length + 1) key .literalKey ∧
    ∀ mark : Token, mark.isOperator "+" = true →
      Analyzer.Finds (SlottedToken.infer (front ++ brace :: mark :: word :: closing :: rest))
        notices (front.length + 2) key .evaluatedKey := by
  intro key
  obtain ⟨halone, hmarked⟩ := Slot.startsSubscript_of_opensSubscript hfront hbrace
  constructor
  · have hfinds := Analyzer.finds_key halone List.getLast?_concat hword hclosing rest notices
    rw [if_neg (by simp [Token.not_isOperator_of_isDelimiter hbrace])] at hfinds
    simpa using hfinds
  · intro mark hmark
    have hfinds :=
      Analyzer.finds_key (hmarked mark hmark) List.getLast?_concat hword hclosing rest notices
    rw [if_pos hmark] at hfinds
    simpa using hfinds

/-- `use constant PI => 3; $h{a}` -/
def elementAfterConstant : List Token :=
  [⟨.identifier, "use", ⟨1, 1⟩⟩, ⟨.identifier, "constant", ⟨1, 5⟩⟩, ⟨.identifier, "PI", ⟨1, 14⟩⟩,
    ⟨.operator, "=>", ⟨1, 17⟩⟩, ⟨.number, "3", ⟨1, 20⟩⟩, ⟨.punctuation, ";", ⟨1, 21⟩⟩,
    ⟨.identifier, "$h", ⟨1, 23⟩⟩, ⟨.delimiter, "\x7b", ⟨1, 25⟩⟩, ⟨.identifier, "a", ⟨1, 26⟩⟩,
    ⟨.delimiter, "\x7d", ⟨1, 27⟩⟩]

/-- In `$h{a}{PI}` the second key is a string, though a constant has its name. -/
theorem keys_of_subscripts_of_constant :
    let tokens := SlottedToken.infer (elementAfterConstant ++ [⟨.delimiter, "\x7b", ⟨1, 28⟩⟩,
      ⟨.identifier, "PI", ⟨1, 29⟩⟩, ⟨.delimiter, "\x7d", ⟨1, 31⟩⟩])
    Slot.OpensSubscript elementAfterConstant ∧
      (Analyzer.foundBefore tokens [] 11).map (·.category) =
        [.constantDeclaration, .literalKey] ∧
      ∃ c, Analyzer.itemAt? tokens [] 11 = some (.ok c) ∧ c.name = "PI" ∧
        c.category = .literalKey := by
  intro tokens
  have hfront : Slot.OpensSubscript elementAfterConstant :=
    @Slot.OpensSubscript.chained (elementAfterConstant.take 7) [⟨.identifier, "a", ⟨1, 26⟩⟩]
      ⟨.delimiter, "\x7b", ⟨1, 25⟩⟩ ⟨.delimiter, "\x7d", ⟨1, 27⟩⟩
      (@Slot.OpensSubscript.sigil (elementAfterConstant.take 6) ⟨.identifier, "$h", ⟨1, 23⟩⟩
        (by decide)) (by decide) (by decide) (by decide)
  obtain ⟨⟨-, hfinds⟩, -⟩ := @keys_of_subscripts elementAfterConstant
    ⟨.delimiter, "\x7b", ⟨1, 28⟩⟩ ⟨.identifier, "PI", ⟨1, 29⟩⟩ ⟨.delimiter, "\x7d", ⟨1, 31⟩⟩
    hfront (by decide) (by decide) (by decide) [] []
  obtain ⟨c, hof, hcategory, -, hitem, -⟩ := hfinds (by decide +kernel)
  exact ⟨hfront, by decide +kernel, c, hitem, hof.name.trans (by decide), hcategory⟩

end CodeUnit

end WordRole
