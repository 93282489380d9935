import WordRole.Proofs.Analysis.Agreement
import WordRole.Proofs.Classification.Rules
import WordRole.Proofs.Slot.Edits

/-!
# Following a rewrite

The rewrite that a report proposes for an ambiguous owner of a member, for a value that is a call
and for one that is a string removes that finding from the report and leaves all else as it was
(`CodeUnit.rewrites_remove_finding`).

* `Analyzer.run_of_replaced`: a token that is classified and declares nothing may be replaced by
  tokens that declare nothing either, if all other tokens keep their slots;
* `Analyzer.step_separated`: the owner is a package when a separator follows.
-/

namespace WordRole

/-! ### Strings -/

namespace Token

theorem interpolates_of_kind {t : Token} (h : t.kind ≠ .stringLiteral) :
    t.interpolates = false := by
  simp [interpolates, h]

section Quoted

variable {t : Token} {name : String} (h : t.text = s!"'{name}'")

include h

theorem toList_text_of_quoted : ∃ cs, t.text.toList = '\'' :: cs := by
  refine ⟨name.toList ++ ['\''], ?_⟩
  rw [h, String.toList_append, String.toList_append, List.append_assoc]
  rfl

theorem interpolates_of_quoted : t.interpolates = false := by
  obtain ⟨cs, hcs⟩ := toList_text_of_quoted h
  simp [interpolates, hcs, opensInterpolatingHeredoc, List.isPrefixOf]

theorem notMem_listProducers_of_quoted : t.text ∉ Vocabulary.listProducers := by
  have hproducers : ∀ word ∈ Vocabulary.listProducers, word.toList.head? ≠ some '\'' := by
    decide
  obtain ⟨cs, hcs⟩ := toList_text_of_quoted h
  intro hmem
  exact hproducers t.text hmem (by rw [hcs]; rfl)

end Quoted

end Token

namespace Analyzer

/-! ### A classified token replaced -/

/-- The run over edited tokens finds these words in the place of the one at an index, and for the
rest it comes to what the run over the tokens comes to. -/
def FindsInstead (tokens edited : List SlottedToken) (notices : List Notice) (i : Nat)
    (c : Classification) (instead : List Classification) : Prop :=
  ∀ unit mode more,
    let found := foundBefore tokens notices i
    let report := (start tokens notices).run unit mode
    let report' := (start edited notices).run unit mode
    report.classifications = found ++ c :: more →
      report'.classifications = found ++ (instead ++ more) ∧ report'.notices = report.notices ∧
        report'.abort = report.abort

section Replaced

variable {before after : List SlottedToken} {t : SlottedToken} {notices : List Notice}
  {c : Classification}
  (h : itemAt? (before ++ t :: after) notices before.length = some (.ok c))

include h

theorem pass_of_itemAt? :
    let a := ((start [] notices).pass (some t.token) before).2
    let n := after.head?.map (·.token)
    (a.step t n).1 = some (.ok c) ∧ a.pass n [t] = ([.ok c], (a.step t n).2) := by
  intro a n
  obtain ⟨habort, hstep⟩ := step_of_itemAt? h
  refine ⟨hstep, ?_⟩
  rw [pass_singleton habort, hstep]
  rfl

theorem exists_more_of_itemAt? (unit : String) (mode : Mode) :
    ∃ more, ((start (before ++ t :: after) notices).run unit mode).classifications =
      foundBefore (before ++ t :: after) notices before.length ++ c :: more := by
  obtain ⟨-, hone⟩ := pass_of_itemAt? h
  have hrun := congrArg Report.classifications
    (run_append before [t] rfl after notices unit mode)
  have hcs := hrun.trans (classifications_pass _ none after)
  rw [classifications_pass, hone, List.append_assoc] at hcs
  rw [foundBefore_append]
  exact ⟨_, hcs⟩

/-- A classified token that declares nothing may be replaced by one that leaves the analyzer as it
is but for its classifications, and by silent ones after that. -/
theorem run_of_replaced {u : SlottedToken} (mid : List SlottedToken) {a : Analyzer}
    {item : Option Item}
    (ha : ((start [] notices).pass (some t.token) before).2 = a)
    (ha' : ((start [] notices).pass (some u.token) before).2 = a)
    (hstep : (a.step u ((mid ++ after).head?.map (·.token))).1 = item)
    (hkeeps : a.Agrees (a.step u ((mid ++ after).head?.map (·.token))).2)
    (hc : c.category.declares = none) (hafter : ∀ v ∈ after.head?, v.slot = none)
    (hmid : ∀ v ∈ mid, v.IsSilent) :
    let edited := before ++ u :: (mid ++ after)
    itemAt? edited notices before.length = item ∧
      FindsInstead (before ++ t :: after) edited notices before.length c
        (classified item.toList) := by
  intro edited
  subst hstep
  obtain ⟨habort, -⟩ := step_of_itemAt? h
  obtain ⟨hfound, hone⟩ := pass_of_itemAt? h
  rw [ha] at habort hfound hone
  constructor
  · rw [itemAt?_append, ha']
    exact if_neg (by simp [habort])
  · intro unit mode more found report report' hmore
    have hn : (mid.head?.map (·.token)).or (after.head?.map (·.token)) =
        (mid ++ after).head?.map (·.token) := by
      rw [List.head?_append, Option.map_or]
    obtain ⟨hsilent, hagrees⟩ := pass_of_silent
      (a := (a.step u ((mid ++ after).head?.map (·.token))).2) hmid (after.head?.map (·.token))
    have hedited := pass_cons habort (after.head?.map (·.token)) u mid hn
    rw [hsilent, List.append_nil] at hedited
    obtain ⟨hcs, hcs', hnotices, hreports⟩ := run_of_agrees ha ha' rfl rfl hone hedited
      ((agrees_step_of_declares hfound hc).symm.trans (hkeeps.trans hagrees)) hafter unit mode
    have hbefore : found = a.findings.classifications := by
      rw [← ha]
      exact foundBefore_append before t after notices
    rw [hbefore] at hmore ⊢
    refine ⟨?_, hnotices, hreports⟩
    obtain ⟨-, rfl⟩ := List.cons.inj (List.append_cancel_left (hmore.symm.trans hcs))
    exact hcs'

/-- Nothing is left of a classified token that silent ones are written for. -/
theorem run_of_silenced {u : SlottedToken} (mid : List SlottedToken)
    (hbefore : (start [] notices).pass (some u.token) before =
      (start [] notices).pass (some t.token) before)
    (hc : c.category.declares = none) (hafter : ∀ v ∈ after.head?, v.slot = none)
    (hsilent : ∀ v ∈ u :: mid, v.IsSilent) :
    let edited := before ++ u :: (mid ++ after)
    itemAt? edited notices before.length = none ∧
      FindsInstead (before ++ t :: after) edited notices before.length c [] := by
  intro edited
  have hstep := step_of_silent ((start [] notices).pass (some t.token) before).2
    (hsilent u List.mem_cons_self) ((mid ++ after).head?.map (·.token))
  refine run_of_replaced h mid rfl (congrArg Prod.snd hbefore) (by rw [hstep]) ?_ hc hafter
    fun v hv => hsilent v (List.mem_cons_of_mem u hv)
  rw [hstep]
  exact ⟨rfl, rfl, rfl⟩

end Replaced

/-! ### The owner of a member -/

theorem category_of_memberAccess {o : Occurrence} {r : Ruling}
    (hs : o.slot = .memberAccess) (h : o.classify = .ok (some r)) : r.category =
      if o.isDeclared .constant then .constantReference
      else if o.nextIs Token.isNamespaceSeparator ∨
          o.isDeclared .package ∧ ¬o.isDeclared .callable then .namespaceName
      else .ambiguousCallableOrNamespace := by
  rw [Occurrence.eq_bareword_of_classify h, Occurrence.category_memberAccess hs]

/-- A word that may or may not name a package names one before a separator. -/
theorem step_separated {a : Analyzer} {t : SlottedToken} {n : Option Token} {separator : Token}
    {c : Classification} (h : (a.step t n).1 = some (.ok c))
    (hc : c.category = .ambiguousCallableOrNamespace)
    (hseparator : separator.isNamespaceSeparator = true) :
    t.slot = some .memberAccess ∧ (∀ u ∈ n, u.isNamespaceSeparator = false) ∧
      ∃ d, (a.step t (some separator)).1 = some (.ok d) ∧ d.IsOf t ∧
        d.category = .namespaceName := by
  obtain ⟨slot, d, hs, hd, rfl⟩ := exists_classify_of_step h
  have hcategory : d.category = .ambiguousCallableOrNamespace := hc
  obtain rfl : slot = .memberAccess := by
    have hmem : d.category ∈ slot.categories := Occurrence.category_mem_of_classify hd
    rw [hcategory] at hmem
    cases slot <;> simp [Slot.categories] at hmem ⊢
  -- no constant has the name, and no separator follows yet
  rw [category_of_memberAccess rfl hd] at hcategory
  split at hcategory
  · cases hcategory
  rename_i hconstant
  split at hcategory
  · cases hcategory
  rename_i hpackage
  refine ⟨hs, fun u hu => ?_, ?_⟩
  · subst hu
    exact Bool.eq_false_iff.mpr fun hu => hpackage (.inl hu)
  · have hword := Occurrence.exists_classify_iff.mp ⟨d, hd⟩
    obtain ⟨e, he⟩ := Occurrence.exists_classify_iff
      (o := a.occurrence t.token .memberAccess (some separator)).mpr hword
    have hjudged := Occurrence.judged_of_classify he
    refine ⟨e.withRewrite, by rw [step_of_classify hs he],
      ⟨hjudged.name, hs.trans (congrArg some hjudged.slot.symm), hjudged.position⟩, ?_⟩
    have hundeclared :
        ¬(a.occurrence t.token .memberAccess (some separator)).isDeclared .constant = true :=
      hconstant
    show e.category = _
    rw [category_of_memberAccess rfl he, if_neg hundeclared, if_pos (.inl hseparator)]

/-! ### Values -/

theorem slot_of_value {a : Analyzer} {t : SlottedToken} {n : Option Token} {c : Classification}
    (h : (a.step t n).1 = some (.ok c))
    (hc : c.category = .implicitCall ∨ c.category = .literalStringLegacy) :
    t.slot = some .pairValue := by
  obtain ⟨slot, d, hs, hd, rfl⟩ := exists_classify_of_step h
  have hmem : d.category ∈ slot.categories := Occurrence.category_mem_of_classify hd
  have hcategory : d.category = .implicitCall ∨ d.category = .literalStringLegacy := hc
  rw [hs]
  rcases hcategory with hcategory | hcategory <;> rw [hcategory] at hmem <;>
    cases slot <;> simp [Slot.categories] at hmem ⊢

end Analyzer

/-! ### The three rewrites -/

namespace Analyzer

section Rewrites

variable {before rest : List Token} {t : Token} {notices : List Notice} {c : Classification}
  (h : itemAt? (SlottedToken.infer (before ++ t :: rest)) notices before.length = some (.ok c))

include h

/-- A classified token has been judged with its slot and the token after it. -/
theorem exists_step_of_infer :
    ∃ a : Analyzer,
      (a.step ⟨t, (SlotWalk.start.afterAll (t :: rest) before).slot t rest⟩ rest.head?).1 =
        some (.ok c) := by
  rw [SlotWalk.infer_append, ← SlotWalk.length_slotted SlotWalk.start (t :: rest) before] at h
  obtain ⟨-, hstep⟩ := step_of_itemAt? h
  rw [← List.head?_map, SlotWalk.map_token_slotted] at hstep
  exact ⟨_, hstep⟩

theorem exists_more_of_infer (unit : String) (mode : Mode) :
    let tokens := SlottedToken.infer (before ++ t :: rest)
    ∃ more, ((start tokens notices).run unit mode).classifications =
      foundBefore tokens notices before.length ++ c :: more := by
  intro tokens
  simp only [tokens]
  rw [SlotWalk.infer_append, ← SlotWalk.length_slotted SlotWalk.start (t :: rest) before] at h ⊢
  exact exists_more_of_itemAt? h unit mode

theorem rewrite_separated (hc : c.category = .ambiguousCallableOrNamespace) {separator : Token}
    (hseparator : separator.isNamespaceSeparator = true) :
    let tokens := SlottedToken.infer (before ++ t :: rest)
    let edited := SlottedToken.infer (before ++ t :: separator :: rest)
    ∃ d, itemAt? edited notices before.length = some (.ok d) ∧ d.IsOf ⟨t, some c.slot⟩ ∧
      d.category = .namespaceName ∧
      FindsInstead tokens edited notices before.length c [d] := by
  intro tokens edited
  obtain ⟨b, hb⟩ := exists_step_of_infer h
  obtain ⟨hslot, hnext, -⟩ := step_separated hb hc hseparator
  obtain ⟨us, vs, hlength, hafter, htokens, hedited⟩ :=
    SlotWalk.infer_separated hslot hnext hseparator
  rw [htokens, ← hlength] at h
  obtain ⟨habort, hstep⟩ := step_of_itemAt? h
  obtain ⟨-, -, d, hd, hof, hcategory⟩ := step_separated hstep hc hseparator
  have hsilent : ∀ u ∈ [SlottedToken.mk separator none], u.IsSilent := by
    rintro u (_ | ⟨_, ⟨⟩⟩)
    exact ⟨rfl, Token.interpolates_of_kind
      (by simp [Token.kind_of_isNamespaceSeparator hseparator])⟩
  have hkeeps := agrees_step_of_declares hd (by rw [hcategory]; rfl)
  obtain ⟨hitem, hrun⟩ := run_of_replaced h [⟨separator, none⟩] rfl rfl hd hkeeps
    (by rw [hc]; rfl) hafter hsilent
  have hcslot := (isOf_of_step habort hstep).slot
  simp only [tokens, edited, htokens, hedited, ← hlength]
  exact ⟨d, hitem, hcslot ▸ hof, hcategory, hrun⟩

theorem rewrite_called (hc : c.category = .implicitCall) {opening closing : Token}
    (hopening : opening.isDelimiter "(" = true) (hclosing : closing.isDelimiter ")" = true) :
    let tokens := SlottedToken.infer (before ++ t :: rest)
    let edited := SlottedToken.infer (before ++ t :: opening :: closing :: rest)
    edited[before.length]? = some ⟨t, none⟩ ∧ itemAt? edited notices before.length = none ∧
      FindsInstead tokens edited notices before.length c [] := by
  intro tokens edited
  obtain ⟨b, hb⟩ := exists_step_of_infer h
  have hslot := slot_of_value hb (.inl hc)
  obtain ⟨us, vs, hlength, hafter, htokens, hedited⟩ :=
    SlotWalk.infer_called hslot hopening hclosing
  have hsilent : ∀ u ∈ [SlottedToken.mk t none, ⟨opening, none⟩, ⟨closing, none⟩],
      u.IsSilent := by
    have hb : t.isBareword = true :=
      (SlotWalk.suits_slot (SlotWalk.fits_afterAll (Promise.fits_none _)) hslot).1
    simp only [List.mem_cons, List.not_mem_nil, or_false]
    rintro u (rfl | rfl | rfl)
    · exact ⟨rfl, Token.interpolates_of_kind (by simp [Token.kind_of_isBareword hb])⟩
    · exact ⟨rfl, Token.interpolates_of_kind (by simp [Token.kind_of_isDelimiter hopening])⟩
    · exact ⟨rfl, Token.interpolates_of_kind (by simp [Token.kind_of_isDelimiter hclosing])⟩
  rw [htokens, ← hlength] at h
  simp only [tokens, edited, htokens, hedited, ← hlength]
  exact ⟨by simp, run_of_silenced h [⟨opening, none⟩, ⟨closing, none⟩] rfl (by rw [hc]; rfl) hafter
    hsilent⟩

theorem rewrite_quoted (hc : c.category = .literalStringLegacy) {literal : Token}
    (hkind : literal.kind = .stringLiteral) (htext : literal.text = s!"'{c.name}'") :
    let tokens := SlottedToken.infer (before ++ t :: rest)
    let edited := SlottedToken.infer (before ++ literal :: rest)
    itemAt? edited notices before.length = none ∧
      FindsInstead tokens edited notices before.length c [] := by
  intro tokens edited
  obtain ⟨b, hb⟩ := exists_step_of_infer h
  obtain ⟨us, vs, hlength, hbefore, hafter, htokens, hedited⟩ :=
    SlotWalk.infer_quoted (slot_of_value hb (.inr hc)) hkind
      (Token.notMem_listProducers_of_quoted htext)
  have hlast := pass_of_getLast? hbefore (start [] notices) (some t) (some literal)
  have hsilent : ∀ u ∈ [SlottedToken.mk literal none], u.IsSilent := by
    rintro u (_ | ⟨_, ⟨⟩⟩)
    exact ⟨rfl, Token.interpolates_of_quoted htext⟩
  rw [htokens, ← hlength] at h
  simp only [tokens, edited, htokens, hedited, ← hlength]
  exact run_of_silenced h [] hlast (by rw [hc]; rfl) hafter hsilent

end Rewrites

end Analyzer

namespace CodeUnit

/-- **Rewrites.**  Let the run over the tokens of a unit come to a finding at a token.  A name that
may be a subroutine or a package names a package once a separator follows; a value that is a call
has no slot and no finding before a pair of parentheses; and no finding is left of a value that is a
string once it is written as one.  Each time all other classifications, the notices and the fault
stay as they are. -/
theorem rewrites_remove_finding (before : List Token) (t : Token) (rest : List Token)
    (notices : List Notice) {c : Classification}
    (h : Analyzer.itemAt? (SlottedToken.infer (before ++ t :: rest)) notices before.length =
      some (.ok c)) (unit : String) (mode : Mode) :
    let report (ts : List Token) := (CodeUnit.mk unit (SlottedToken.infer ts) notices).report mode
    let item (ts : List Token) :=
      Analyzer.itemAt? (SlottedToken.infer ts) notices before.length
    let tokens := before ++ t :: rest
    let found := Analyzer.foundBefore (SlottedToken.infer tokens) notices before.length
    ∃ more, (report tokens).classifications = found ++ c :: more ∧
      (c.category = .ambiguousCallableOrNamespace →
        ∀ separator : Token, separator.isPunctuation "::" = true →
          let edited := before ++ t :: separator :: rest
          ∃ d, item edited = some (.ok d) ∧ d.IsOf ⟨t, some c.slot⟩ ∧
            d.category = .namespaceName ∧
            (report edited).classifications = found ++ d :: more ∧
            (report edited).notices = (report tokens).notices ∧
            (report edited).abort = (report tokens).abort) ∧
      (c.category = .implicitCall →
        ∀ opening closing : Token, opening.isDelimiter "(" = true →
          closing.isDelimiter ")" = true →
          let edited := before ++ t :: opening :: closing :: rest
          (SlottedToken.infer edited)[before.length]? = some ⟨t, none⟩ ∧ item edited = none ∧
            (report edited).classifications = found ++ more ∧
            (report edited).notices = (report tokens).notices ∧
            (report edited).abort = (report tokens).abort) ∧
      (c.category = .literalStringLegacy →
        ∀ literal : Token, literal.kind = .stringLiteral → literal.text = s!"'{c.name}'" →
          let edited := before ++ literal :: rest
          item edited = none ∧
            (report edited).classifications = found ++ more ∧
            (report edited).notices = (report tokens).notices ∧
            (report edited).abort = (report tokens).abort) := by
  intro report item tokens found
  obtain ⟨more, hmore⟩ := Analyzer.exists_more_of_infer h unit mode
  refine ⟨more, hmore, fun hc separator hseparator => ?_,
    fun hc opening closing hopening hclosing => ?_, fun hc literal hkind htext => ?_⟩
  · obtain ⟨d, hitem, hof, hcategory, hrun⟩ := Analyzer.rewrite_separated h hc hseparator
    exact ⟨d, hitem, hof, hcategory, hrun unit mode more hmore⟩
  · obtain ⟨hslot, hitem, hrun⟩ := Analyzer.rewrite_called h hc hopening hclosing
    exact ⟨hslot, hitem, hrun unit mode more hmore⟩
  · obtain ⟨hitem, hrun⟩ := Analyzer.rewrite_quoted h hc hkind htext
    exact ⟨hitem, hrun unit mode more hmore⟩

/-- `Foo` -/
def ownerWord : Token := ⟨.identifier, "Foo", ⟨1, 1⟩⟩

def ownerArrow : Token := ⟨.operator, "->", ⟨1, 4⟩⟩

/-- `k => ` -/
def pairStart : List Token := [⟨.identifier, "k", ⟨2, 1⟩⟩, ⟨.operator, "=>", ⟨2, 3⟩⟩]

/-- `sub f; k => ` -/
def pairAfterSub : List Token :=
  ⟨.identifier, "sub", ⟨1, 1⟩⟩ :: ⟨.identifier, "f", ⟨1, 5⟩⟩ :: ⟨.punctuation, ";", ⟨1, 6⟩⟩ ::
    pairStart

/-- `f` -/
def valueWord : Token := ⟨.identifier, "f", ⟨2, 6⟩⟩

def semicolon : Token := ⟨.punctuation, ";", ⟨2, 7⟩⟩

/-- `Foo->` is rewritten to `Foo::->`, and the value of `k => f;` to `f()` where `f` is declared
and to `'f'` where it is not. -/
theorem rewrites_of_owner_and_values :
    let item (ts : List Token) := Analyzer.itemAt? (SlottedToken.infer ts) []
    (∃ c d, item [ownerWord, ownerArrow] 0 = some (.ok c) ∧
      c.category = .ambiguousCallableOrNamespace ∧
      item [ownerWord, ⟨.punctuation, "::", ⟨1, 4⟩⟩, ownerArrow] 0 = some (.ok d) ∧
      d.category = .namespaceName) ∧
    (∃ c, item (pairAfterSub ++ [valueWord, semicolon]) 5 = some (.ok c) ∧
      c.category = .implicitCall ∧
      item (pairAfterSub ++ [valueWord, ⟨.delimiter, "(", ⟨2, 7⟩⟩, ⟨.delimiter, ")", ⟨2, 8⟩⟩,
        semicolon]) 5 = none) ∧
    (∃ c, item (pairStart ++ [valueWord, semicolon]) 2 = some (.ok c) ∧
      c.category = .literalStringLegacy ∧
      item (pairStart ++ [⟨.stringLiteral, "'f'", ⟨2, 6⟩⟩, semicolon]) 2 = none) := by
  intro item
  -- what the rules make of each of the words
  have howner : item [ownerWord, ownerArrow] 0 = some (.ok (Occurrence.bareword
      ⟨ownerWord, .memberAccess, none, ownerArrow, .empty⟩).withRewrite) :=
    rfl
  have hcall : item (pairAfterSub ++ [valueWord, semicolon]) 5 = some (.ok (Occurrence.bareword
      ⟨valueWord, .pairValue, pairStart.getLast?, semicolon,
        .recordAll .empty [⟨"f", .callable, ⟨1, 5⟩⟩]⟩).withRewrite) :=
    rfl
  have hstring : item (pairStart ++ [valueWord, semicolon]) 2 = some (.ok (Occurrence.bareword
      ⟨valueWord, .pairValue, pairStart.getLast?, semicolon, .empty⟩).withRewrite) :=
    rfl
  refine ⟨?_, ?_, ?_⟩
  · obtain ⟨more, -, hseparated, -, -⟩ :=
      rewrites_remove_finding [] ownerWord [ownerArrow] [] howner "u" .strict
    obtain ⟨d, hd, -, hcategory, -⟩ := hseparated rfl ⟨.punctuation, "::", ⟨1, 4⟩⟩ rfl
    exact ⟨_, d, howner, rfl, hd, hcategory⟩
  · obtain ⟨more, -, -, hcalled, -⟩ :=
      rewrites_remove_finding pairAfterSub valueWord [semicolon] [] hcall "u" .strict
    obtain ⟨-, hitem, -⟩ := hcalled rfl ⟨.delimiter, "(", ⟨2, 7⟩⟩ ⟨.delimiter, ")", ⟨2, 8⟩⟩ rfl rfl
    exact ⟨_, hcall, rfl, hitem⟩
  · obtain ⟨more, -, -, -, hquoted⟩ :=
      rewrites_remove_finding pairStart valueWord [semicolon] [] hstring "u" .strict
    obtain ⟨hitem, -⟩ := hquoted rfl ⟨.stringLiteral, "'f'", ⟨2, 6⟩⟩ rfl rfl
    exact ⟨_, hstring, rfl, hitem⟩

end CodeUnit

end WordRole
