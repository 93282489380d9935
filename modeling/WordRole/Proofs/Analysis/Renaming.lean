import Mathlib.Data.List.Forall2
import Mathlib.Data.Option.Basic
import WordRole.Proofs.Analysis.Agreement
import WordRole.Proofs.Analysis.Declared
import WordRole.Proofs.Analysis.Items

/-!
# Names that have nothing to do with each other

Where subroutines, packages and constants are declared under other names, the words that have none
of the old and the new names are judged as before (`Analyzer.unrelated_names_kept`).  The tables of
the two runs hold different declarations, but agree on all other names, and the tokens beside a word
may differ only in being one name or another, which no rule looks at.

* `Occurrence.classify_of_alike`: the rules ask for no more than what is alike in the two runs;
* `Analyzer.step_of_agreesOutside`: a step keeps the agreement of the tables outside the names;
* `Analyzer.pass_of_agreesOutside`: so does a pass, which finds the same for the other names.
-/

namespace WordRole

/-! ### Words beside a word -/

namespace Token

/-- Whether two tokens are equal or both names, which is the same to the words beside them. -/
def Resembles (t u : Token) : Prop := u = t ∨ t.isBareword = true ∧ u.isBareword = true

/-- A test that answers the same for all names does not tell them apart. -/
theorem any_of_resembles {test : Token → Bool} {answer : Bool}
    (htest : ∀ t : Token, t.isBareword = true → test t = answer) {beside beside' : Option Token}
    (h : Option.Rel Resembles beside beside') : beside'.any test = beside.any test := by
  cases h with
  | none => rfl
  | some hr =>
    rcases hr with rfl | ⟨ht, hu⟩
    · rfl
    · exact (htest _ hu).trans (htest _ ht).symm

end Token

namespace Occurrence

/-- Two occurrences of a token that the rules cannot tell apart. -/
structure Alike (o o' : Occurrence) : Prop where
  token : o'.token = o.token
  slot : o'.slot = o.slot
  previous : Option.Rel Token.Resembles o.previous o'.previous
  next : Option.Rel Token.Resembles o.next o'.next
  declaredAt : ∀ kind, o'.declaredAt kind = o.declaredAt kind

section Alike

variable {o o' : Occurrence} (h : o.Alike o')

include h

theorem Alike.isDeclared (kind : DeclarationKind) : o'.isDeclared kind = o.isDeclared kind := by
  rw [isDeclared_eq_isSome, isDeclared_eq_isSome, h.declaredAt]

theorem Alike.name : o'.name = o.name := congrArg Token.name h.token

theorem Alike.inCategory (c : Category) (level : AmbiguityLevel) (rationale : String) :
    o'.inCategory c level rationale = o.inCategory c level rationale := by
  unfold Occurrence.inCategory
  rw [h.name, h.slot, h.token]

theorem Alike.constantReference : o'.constantReference = o.constantReference := by
  unfold Occurrence.constantReference
  rw [h.inCategory, h.name, h.declaredAt]

theorem Alike.containerKey : o'.containerKey = o.containerKey := by
  have hmark : o'.previousIs (·.isOperator Token.evaluationMark) =
      o.previousIs (·.isOperator Token.evaluationMark) :=
    Token.any_of_resembles (fun t ht => Token.not_isOperator_of_isBareword ht _) h.previous
  have hplain : ∀ t : Token, t.isBareword = true →
      (!(t.isDelimiter "\x7d" || t.isFatComma || t.isPunctuation "," ||
        t.isNamespaceSeparator)) = true := by
    intro t ht
    simp [Token.not_isDelimiter_of_isBareword ht, Token.isFatComma,
      Token.not_isOperator_of_isBareword ht, Token.isNamespaceSeparator,
      Token.not_isPunctuation_of_isBareword ht]
  have harguments := Token.any_of_resembles hplain h.next
  unfold Occurrence.containerKey nextIs
  simp only [hmark, harguments, h.inCategory, h.name, h.declaredAt]

theorem Alike.memberAccess : o'.memberAccess = o.memberAccess := by
  have hseparator : o'.nextIs Token.isNamespaceSeparator = o.nextIs Token.isNamespaceSeparator :=
    Token.any_of_resembles (fun t ht => Token.not_isPunctuation_of_isBareword ht _) h.next
  unfold Occurrence.memberAccess
  simp only [hseparator, h.inCategory, h.name, h.declaredAt, h.isDeclared]

theorem Alike.statementCall : o'.statementCall = o.statementCall := by
  unfold Occurrence.statementCall
  simp only [h.inCategory, h.name, h.declaredAt]

theorem Alike.specialBlock : o'.specialBlock = o.specialBlock := by
  have hbrace : o'.nextIs (·.isDelimiter "\x7b") = o.nextIs (·.isDelimiter "\x7b") :=
    Token.any_of_resembles (fun t ht => Token.not_isDelimiter_of_isBareword ht _) h.next
  unfold Occurrence.specialBlock
  rw [hbrace, h.statementCall, h.inCategory, h.name]

theorem Alike.declaration : o'.declaration = o.declaration := by
  unfold Occurrence.declaration
  simp only [h.inCategory, h.name, h.slot]

theorem Alike.pairValue : o'.pairValue = o.pairValue := by
  unfold Occurrence.pairValue
  simp only [h.inCategory, h.name, h.declaredAt]

theorem Alike.ioHandle : o'.ioHandle = o.ioHandle := by
  unfold Occurrence.ioHandle
  simp only [h.inCategory, h.name, h.declaredAt]

theorem Alike.comparatorName : o'.comparatorName = o.comparatorName := by
  unfold Occurrence.comparatorName
  simp only [h.inCategory, h.name, h.declaredAt]

theorem Alike.comparator : o'.comparator = o.comparator := by
  unfold Occurrence.comparator
  rw [h.comparatorName, h.token]

theorem Alike.bareword : o'.bareword = o.bareword := by
  unfold Occurrence.bareword
  simp only [h.slot, h.isDeclared, h.constantReference, h.containerKey, h.memberAccess,
    h.specialBlock, h.declaration, h.pairValue, h.statementCall, h.ioHandle, h.comparatorName]

theorem classify_of_alike : o'.classify = o.classify := by
  unfold classify
  rw [h.slot, h.comparator, h.token, h.declaration, h.bareword]

end Alike

end Occurrence

/-! ### Tokens under other names -/

namespace SlottedToken

/-- Two tokens that differ in a name only, under which a subroutine, a package or a constant is
declared. -/
structure Renamed (t u : SlottedToken) : Prop where
  slot : u.slot = t.slot
  position : u.token.position = t.token.position
  declares : t.slot ∈ [some Slot.callableDeclaration, some Slot.namespaceDeclaration,
    some Slot.constantDeclaration]
  isBareword_left : t.token.isBareword = true
  isBareword_right : u.token.isBareword = true

/-- Whether two tokens are equal, or one is the other under another name. -/
def SameButName (t u : SlottedToken) : Prop := u = t ∨ t.Renamed u

/-- the names of the tokens that differ, in either stream -/
def renamedNames (ts us : List SlottedToken) : List String :=
  (ts.zip us).flatMap fun p => if p.1 = p.2 then [] else [p.1.token.name, p.2.token.name]

/-- Whether two tokens are equal, or one is the other under another name, both among some names. -/
def SameOutside (names : List String) (t u : SlottedToken) : Prop :=
  u = t ∨ t.Renamed u ∧ t.token.name ∈ names ∧ u.token.name ∈ names

theorem SameOutside.resembles {names : List String} {t u : SlottedToken}
    (h : t.SameOutside names u) : t.token.Resembles u.token := by
  rcases h with rfl | ⟨hr, -⟩
  · exact .inl rfl
  · exact .inr ⟨hr.isBareword_left, hr.isBareword_right⟩

theorem Renamed.isFault_eq_false {t u : SlottedToken} (h : t.Renamed u) :
    t.isFault = false ∧ u.isFault = false := by
  have hs : t.slot ≠ some .orderingComparator := by
    intro hs
    have := h.declares
    simp [hs] at this
  exact ⟨by simp [isFault, hs], by simp [isFault, h.slot, hs]⟩

theorem Renamed.holdsWord {t u : SlottedToken} (h : t.Renamed u) :
    t.holdsWord = true ∧ u.holdsWord = true := by
  have hd := h.declares
  simp only [List.mem_cons, List.not_mem_nil, or_false] at hd
  unfold SlottedToken.holdsWord
  rw [h.slot]
  rcases hd with hd | hd | hd <;> rw [hd] <;> exact ⟨h.isBareword_left, h.isBareword_right⟩

theorem forall₂_sameOutside {ts us : List SlottedToken} (h : List.Forall₂ SameButName ts us) :
    List.Forall₂ (SameOutside (renamedNames ts us)) ts us := by
  -- more names do no harm, which makes room for those of the first tokens
  have more : ∀ names, renamedNames ts us ⊆ names →
      List.Forall₂ (SameOutside names) ts us := by
    intro names
    induction h with
    | nil => exact fun _ => .nil
    | @cons t u ts us ht hts ih =>
      intro hnames
      have hnames : ((if t = u then [] else [t.token.name, u.token.name]) ++
          renamedNames ts us) ⊆ names := hnames
      obtain ⟨hfirst, hrest⟩ := List.append_subset.mp hnames
      refine .cons ?_ (ih hrest)
      by_cases hne : t = u
      · exact .inl hne.symm
      · rw [if_neg hne] at hfirst
        exact .inr ⟨ht.resolve_left (Ne.symm hne), hfirst (by simp), hfirst (by simp)⟩
  exact more _ fun _ hm => hm

end SlottedToken

namespace Analyzer

/-! ### One step -/

/-- Two analyzers that know the same of all names but some. -/
structure AgreesOutside (names : List String) (a b : Analyzer) : Prop where
  declared : ∀ name ∉ names, ∀ kind, b.declared.first? name kind = a.declared.first? name kind
  previous : Option.Rel Token.Resembles a.previous b.previous
  abort : b.abort = a.abort

/-- Whether two steps come to the same, or both to a classification of some names. -/
def ItemsAgreeOutside (names : List String) (x y : Option Item) : Prop :=
  y = x ∨ ∃ c d, x = some (.ok c) ∧ y = some (.ok d) ∧ c.name ∈ names ∧ d.name ∈ names

theorem ItemsAgreeOutside.eq_some_iff {names : List String} {x y : Option Item}
    (h : ItemsAgreeOutside names x y) {c : Classification} (hc : c.name ∉ names) :
    y = some (.ok c) ↔ x = some (.ok c) := by
  rcases h with rfl | ⟨d, e, rfl, rfl, hd, he⟩
  · rfl
  · constructor
    · rintro ⟨⟩
      exact absurd he hc
    · rintro ⟨⟩
      exact absurd hd hc

/-- the classifications among items that have none of some names -/
def classifiedOutside (names : List String) (items : List Item) : List Classification :=
  (classified items).filter (·.name ∉ names)

theorem classifiedOutside_append (names : List String) (items more : List Item) :
    classifiedOutside names (items ++ more) =
      classifiedOutside names items ++ classifiedOutside names more := by
  unfold classifiedOutside
  rw [classified_append, List.filter_append]

theorem ItemsAgreeOutside.classifiedOutside_eq {names : List String} {x y : Option Item}
    (h : ItemsAgreeOutside names x y) :
    classifiedOutside names y.toList = classifiedOutside names x.toList := by
  rcases h with rfl | ⟨c, d, rfl, rfl, hc, hd⟩
  · rfl
  · simp [classifiedOutside, hc, hd]

/-- A token declares no name but its own. -/
theorem first?_step_of_ne (a : Analyzer) (t : SlottedToken) (n : Option Token) {name : String}
    (h : t.token.name ≠ name) (kind : DeclarationKind) :
    (a.step t n).2.declared.first? name kind = a.declared.first? name kind := by
  obtain ⟨-, hs⟩ | ⟨slot, r, -, -, hs⟩ | ⟨slot, -, -, hs⟩ | ⟨slot, e, -, -, hs⟩ :=
    a.step_cases t n <;> rw [hs]
  · simp
  · show (a.add t.token r).declared.first? name kind = _
    rw [first?_add, if_neg (fun hn => h hn.1), Option.or_none]
  · rfl
  · rfl

section Step

variable {names : List String} {a b : Analyzer} {t u : SlottedToken} {n n' : Option Token}

/-- A step at a token of another name. -/
theorem step_of_not_mem (h : AgreesOutside names a b) (ht : t.token.name ∉ names)
    (hn : Option.Rel Token.Resembles n n') :
    (b.step t n').1 = (a.step t n).1 ∧
      ∀ name ∉ names, ∀ kind, (b.step t n').2.declared.first? name kind =
        (a.step t n).2.declared.first? name kind := by
  cases hs : t.slot with
  | none =>
    rw [step_of_slot_eq_none a hs, step_of_slot_eq_none b hs]
    refine ⟨rfl, fun name hname kind => ?_⟩
    simpa using h.declared name hname kind
  | some slot =>
    have halike : (a.occurrence t.token slot n).Alike (b.occurrence t.token slot n') :=
      ⟨rfl, rfl, h.previous, hn, h.declared t.token.name ht⟩
    have hclassify := Occurrence.classify_of_alike halike
    unfold occurrence at hclassify
    simp only [step, hs, visit, hclassify]
    split
    · rename_i r _
      refine ⟨rfl, fun name hname kind => ?_⟩
      show (b.add t.token r).declared.first? name kind =
        (a.add t.token r).declared.first? name kind
      rw [first?_add, first?_add, h.declared name hname]
    · exact ⟨rfl, h.declared⟩
    · exact ⟨rfl, h.declared⟩

/-- A token that is no fault comes to an item of its own name. -/
theorem step_of_mem (ha : a.abort = none) (hb : b.abort = none) (ht : t.isFault = false)
    (hu : u.isFault = false) (hw : u.holdsWord = t.holdsWord) (htn : t.token.name ∈ names)
    (hun : u.token.name ∈ names) (n n' : Option Token) :
    ItemsAgreeOutside names (a.step t n).1 (b.step u n').1 := by
  obtain ⟨-, ⟨htw, hx⟩ | ⟨htw, c, hx, hc⟩⟩ := step_of_not_isFault ha ht n <;>
    obtain ⟨-, ⟨huw, hy⟩ | ⟨huw, d, hy, hd⟩⟩ := step_of_not_isFault hb hu n' <;>
    rw [hw, htw] at huw
  · exact .inl (hy.trans hx.symm)
  · cases huw
  · cases huw
  · exact .inr ⟨c, d, hx, hy, hc.name ▸ htn, hd.name ▸ hun⟩

theorem step_of_agreesOutside (h : AgreesOutside names a b) (ha : a.abort = none)
    (htu : t.SameOutside names u) (hn : Option.Rel Token.Resembles n n') :
    ItemsAgreeOutside names (a.step t n).1 (b.step u n').1 ∧
      AgreesOutside names (a.step t n).2 (b.step u n').2 := by
  have hb : b.abort = none := h.abort.trans ha
  have hprevious : Option.Rel Token.Resembles (a.step t n).2.previous (b.step u n').2.previous := by
    rw [previous_step, previous_step]
    exact .some htu.resembles
  -- a token of one of the names leaves the others as they are
  have hdeclared : t.token.name ∈ names → u.token.name ∈ names → ∀ name ∉ names, ∀ kind,
      (b.step u n').2.declared.first? name kind = (a.step t n).2.declared.first? name kind := by
    intro ht hu name hname kind
    rw [first?_step_of_ne a t n (ne_of_mem_of_not_mem ht hname),
      first?_step_of_ne b u n' (ne_of_mem_of_not_mem hu hname), h.declared name hname]
  rcases htu with rfl | ⟨hr, ht, hu⟩
  · have habort : (b.step u n').2.abort = (a.step u n).2.abort := by
      rw [abort_step ha, abort_step hb]
    by_cases hu : u.token.name ∈ names
    · refine ⟨?_, hdeclared hu hu, hprevious, habort⟩
      cases hf : u.isFault with
      | true =>
        rw [step_of_isFault hf, step_of_isFault hf]
        exact .inl rfl
      | false => exact step_of_mem ha hb hf hf rfl hu hu n n'
    · obtain ⟨hitem, hd⟩ := step_of_not_mem h hu hn
      exact ⟨.inl hitem, hd, hprevious, habort⟩
  · obtain ⟨htf, huf⟩ := hr.isFault_eq_false
    obtain ⟨htw, huw⟩ := hr.holdsWord
    refine ⟨step_of_mem ha hb htf huf (huw.trans htw.symm) ht hu n n', hdeclared ht hu,
      hprevious, ?_⟩
    rw [abort_step ha, abort_step hb, htf, huf]
    rfl

end Step

/-! ### A pass -/

/-- The tokens that follow resemble each other. -/
theorem rel_next {names : List String} {ts us : List SlottedToken}
    (h : List.Forall₂ (SlottedToken.SameOutside names) ts us) {n n' : Option Token}
    (hn : Option.Rel Token.Resembles n n') :
    Option.Rel Token.Resembles ((ts.head?.map (·.token)).or n)
      ((us.head?.map (·.token)).or n') := by
  cases h with
  | nil => exact hn
  | cons ht _ => exact .some ht.resembles

theorem pass_of_agreesOutside {names : List String} {a b : Analyzer}
    (h : AgreesOutside names a b) {ts us : List SlottedToken}
    (hts : List.Forall₂ (SlottedToken.SameOutside names) ts us) {n n' : Option Token}
    (hn : Option.Rel Token.Resembles n n') :
    classifiedOutside names (b.pass n' us).1 = classifiedOutside names (a.pass n ts).1 ∧
      AgreesOutside names (a.pass n ts).2 (b.pass n' us).2 := by
  induction hts generalizing a b with
  | nil => exact ⟨rfl, h⟩
  | @cons t u ts us ht hts ih =>
    by_cases ha : a.abort.isSome
    · rw [pass_of_abort ha, pass_of_abort (by rw [h.abort]; exact ha)]
      exact ⟨rfl, h⟩
    · have ha : a.abort = none := by simpa using ha
      obtain ⟨hitem, hstep⟩ := step_of_agreesOutside h ha ht (rel_next hts hn)
      obtain ⟨hmore, hlast⟩ := ih hstep
      rw [pass_cons ha n t ts rfl, pass_cons (h.abort.trans ha) n' u us rfl,
        classifiedOutside_append, classifiedOutside_append, hitem.classifiedOutside_eq, hmore]
      exact ⟨rfl, hlast⟩

theorem agreesOutside_start (names : List String) (ts us : List SlottedToken)
    (notices notices' : List Notice) :
    AgreesOutside names (start ts notices) (start us notices') :=
  ⟨fun _ _ _ => rfl, .none, rfl⟩

/-! ### Runs -/

theorem itemAt?_of_length_le {ts : List SlottedToken} {i : Nat} (h : ts.length ≤ i)
    (notices : List Notice) : itemAt? ts notices i = none := by
  unfold itemAt?
  by_cases ha : ((start ts notices).advance i).2.abort.isSome
  · rw [turn?_of_abort ha]
    rfl
  · have ha : ((start ts notices).advance i).2.abort = none := by simpa using ha
    rw [turn?_of_nil]
    · rfl
    · rw [toList_tokens_of_abort ha, toList_tokens_start, List.drop_eq_nil_of_le h]

theorem itemsAgreeOutside_itemAt? {names : List String} {ts us : List SlottedToken}
    (h : List.Forall₂ (SlottedToken.SameOutside names) ts us) (notices notices' : List Notice)
    (i : Nat) :
    ItemsAgreeOutside names (itemAt? ts notices i) (itemAt? us notices' i) := by
  by_cases hi : i < ts.length
  · have hi' : i < us.length := h.length_eq ▸ hi
    have hbefore := List.forall₂_take i h
    have hrest := List.forall₂_drop i h
    -- both streams around the tokens at the index
    obtain ⟨before, t, after, hts, hlength⟩ : ∃ before t after, ts = before ++ t :: after ∧
        before.length = i := ⟨ts.take i, ts[i], ts.drop (i + 1), by simp, by simp; omega⟩
    obtain ⟨before', u, after', hus, hlength'⟩ : ∃ before' u after', us = before' ++ u :: after' ∧
        before'.length = i := ⟨us.take i, us[i], us.drop (i + 1), by simp, by simp; omega⟩
    rw [hts, hus, List.take_left' hlength, List.take_left' hlength'] at hbefore
    rw [hts, hus, List.drop_left' hlength, List.drop_left' hlength', List.forall₂_cons] at hrest
    obtain ⟨htu, hafter⟩ := hrest
    obtain ⟨-, hagrees⟩ := pass_of_agreesOutside (agreesOutside_start names [] [] notices notices')
      hbefore (.some htu.resembles)
    have hx := itemAt?_append before t after notices
    have hy := itemAt?_append before' u after' notices'
    rw [hlength] at hx
    rw [hlength'] at hy
    rw [hts, hus, hx, hy, hagrees.abort]
    split
    · exact .inl rfl
    · rename_i ha
      have hnext := rel_next hafter .none
      rw [Option.or_none, Option.or_none] at hnext
      exact (step_of_agreesOutside hagrees (by simpa using ha) htu hnext).1
  · have hi : ts.length ≤ i := Nat.le_of_not_lt hi
    rw [itemAt?_of_length_le hi, itemAt?_of_length_le (h.length_eq ▸ hi)]
    exact .inl rfl

/-- **Unrelated names.**  Where streams differ only in the names under which subroutines, packages
and constants are declared, words that have none of these names are classified alike, at the same
tokens and in the same order, and the runs end in the same fault or in none. -/
theorem unrelated_names_kept {ts us : List SlottedToken}
    (h : List.Forall₂ SlottedToken.SameButName ts us) (notices notices' : List Notice)
    (unit : String) (mode : Mode) :
    let names := SlottedToken.renamedNames ts us
    let report := (start ts notices).run unit mode
    let report' := (start us notices').run unit mode
    report'.classifications.filter (·.name ∉ names) =
        report.classifications.filter (·.name ∉ names) ∧
      (∀ i c, c.name ∉ names →
        (itemAt? us notices' i = some (.ok c) ↔ itemAt? ts notices i = some (.ok c))) ∧
      report'.abort = report.abort := by
  intro names report report'
  have hts := SlottedToken.forall₂_sameOutside h
  have hnext : Option.Rel Token.Resembles (none : Option Token) none := .none
  obtain ⟨hfound, hlast⟩ := pass_of_agreesOutside
    (agreesOutside_start names ts us notices notices') hts hnext
  refine ⟨?_, fun i c hc => (itemsAgreeOutside_itemAt? hts notices notices' i).eq_some_iff hc, ?_⟩
  · show ((start us notices').run unit mode).classifications.filter _ =
      ((start ts notices).run unit mode).classifications.filter _
    rw [classifications_run, classifications_run]
    exact hfound
  · show ((start us notices').run unit mode).abort = ((start ts notices).run unit mode).abort
    rw [run_eq_finish_pass, run_eq_finish_pass]
    exact hlast.abort

/-- a subroutine that is declared under a name, a call of it as `f` and one of `g` -/
def declaredAndCalled (name : String) : List SlottedToken :=
  [⟨⟨.identifier, name, ⟨1, 5⟩⟩, some .callableDeclaration⟩,
    ⟨⟨.identifier, "f", ⟨2, 1⟩⟩, some .statementCall⟩,
    ⟨⟨.identifier, "g", ⟨3, 1⟩⟩, some .statementCall⟩]

/-- The call of `g` is judged the same when `f` is declared as `h`, the call of `f` is not. -/
theorem unrelated_names_kept_of_call :
    List.Forall₂ SlottedToken.SameButName (declaredAndCalled "f") (declaredAndCalled "h") ∧
    SlottedToken.renamedNames (declaredAndCalled "f") (declaredAndCalled "h") = ["f", "h"] ∧
    ((start (declaredAndCalled "h") []).run "u" .strict).classifications.filter
        (·.name ∉ ["f", "h"]) =
      ((start (declaredAndCalled "f") []).run "u" .strict).classifications.filter
        (·.name ∉ ["f", "h"]) := by
  have h : List.Forall₂ SlottedToken.SameButName (declaredAndCalled "f") (declaredAndCalled "h") :=
    .cons (.inr ⟨rfl, rfl, by decide, by decide, by decide⟩)
      (.cons (.inl rfl) (.cons (.inl rfl) .nil))
  have hnames : SlottedToken.renamedNames (declaredAndCalled "f") (declaredAndCalled "h") =
      ["f", "h"] := by decide
  have hkept := (unrelated_names_kept h [] [] "u" .strict).1
  rw [hnames] at hkept
  exact ⟨h, hnames, hkept⟩

end Analyzer

end WordRole
