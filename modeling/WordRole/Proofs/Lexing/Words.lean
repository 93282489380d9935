import Mathlib.Data.List.TakeWhile
import WordRole.Proofs.Lexing.Places

/-!
# What stands at a token

A token stands in the source as it is written there: the source reads the text of the token at its
place, and only the marker of a heredoc has more in its text than that
(`Lexed.reads_of_mem_tokens`).  Words and scalars are whole names.

* `Context.exists_cut_of_segments`: every segment is cut from the text that starts where it stands;
* `Lexeme.GoesOn`: how a text could go on with the name before it;
* `Segment.Shows.marker`, `Segment.Shows.not_goesOn_of_isBareword`,
  `Segment.Shows.not_goesOn_of_isScalarVariable`: what of a token stands there, and where it ends.
-/

namespace WordRole

/-- What of a token's text stands where the token does: of a heredoc the marker, which ends at the
first newline, and all of any other text. -/
def Token.marker (t : Token) : List Char :=
  if ['<', '<'].isPrefixOf t.text.toList then t.text.toList.takeWhile (· != '\n')
  else t.text.toList

theorem Token.marker_of_head?_ne {t : Token} (h : t.text.toList.head? ≠ some '<') :
    t.marker = t.text.toList := by
  unfold marker
  cases hc : t.text.toList with
  | nil => rfl
  | cons c cs =>
    rw [hc] at h
    have hne : c ≠ '<' := fun he => h (congrArg some he)
    rw [if_neg (by simp [List.isPrefixOf, hne.symm])]

/-! ### Whole names -/

namespace Lexeme

/-- A text goes on with the name before it: with a digit, or with a letter, an underscore or one
more name after a separator, unless the name is made up of digits. -/
inductive GoesOn (name : List Char) : List Char → Prop
  | digit {c : Char} {cs : List Char} (h : c.isDigit = true) : GoesOn name (c :: cs)
  | letter {c : Char} {cs : List Char} (hname : ∃ d ∈ name, d.isDigit = false)
    (h : c.isAlpha = true ∨ c = '_') : GoesOn name (c :: cs)
  | separator {c : Char} {cs : List Char} (hname : ∃ d ∈ name, d.isDigit = false)
    (h : c.isAlpha = true ∨ c = '_') : GoesOn name (':' :: ':' :: c :: cs)

variable {name : List Char}

theorem GoesOn.append {after : List Char} (h : GoesOn name after) (more : List Char) :
    GoesOn name (after ++ more) := by
  cases h with
  | digit h => exact .digit h
  | letter hname h => exact .letter hname h
  | separator hname h => exact .separator hname h

/-- No name goes on where a qualified name ends. -/
theorem not_goesOn_qualifiedName (name s : List Char) : ¬GoesOn name (qualifiedName s).rest := by
  have hcolon : isNameChar ':' = false := by decide
  have hchar : ∀ {c : Char}, isNameChar c = false → c.isDigit = true ∨ c.isAlpha = true ∨ c = '_' →
      False := by
    rintro c hc (h | h | h) <;> simp [isNameChar, isNameStart, h] at hc
  fun_induction qualifiedName s with
  | case1 c cs hc ih => exact ih
  | case2 c cs hc =>
    intro h
    cases h with
    | digit h => exact hchar hcolon (.inl h)
    | letter _ h => exact hchar hcolon (.inr h)
    | separator _ h => exact hc (by simpa [isNameStart] using h)
  | case3 c cs _ hc ih => exact ih
  | case4 c cs hno hc =>
    intro h
    cases h with
    | digit h => exact hchar (by simpa using hc) (.inl h)
    | letter _ h => exact hchar (by simpa using hc) (.inr h)
    | separator _ h => exact hno _ _ rfl rfl
  | case5 =>
    intro h
    cases h

theorem newline_notMem_qualifiedName (s : List Char) : '\n' ∉ (qualifiedName s).taken := by
  have hne : ∀ {c : Char}, isNameChar c = true → '\n' ≠ c := by
    rintro _ hc rfl
    revert hc
    decide
  fun_induction qualifiedName s with
  | case1 c cs hc ih => simp [hne (isNameChar_of_isNameStart hc), ih]
  | case2 => simp [Text.Cut.nothing]
  | case3 c cs _ hc ih => simp [hne hc, ih]
  | case4 => simp [Text.Cut.nothing]
  | case5 => simp [Text.Cut.nothing]

theorem not_goesOn_of_digits (h : ∀ d ∈ name, d.isDigit = true) (s : List Char) :
    ¬GoesOn name (s.dropWhile Char.isDigit) := by
  have hdigits : ¬∃ d ∈ name, d.isDigit = false := by
    rintro ⟨d, hd, hno⟩
    rw [h d hd] at hno
    cases hno
  have hend := List.head?_dropWhile_not Char.isDigit s
  intro hon
  generalize s.dropWhile Char.isDigit = after at hend hon
  cases hon with
  | digit hc => simp [hc] at hend
  | letter hname _ => exact hdigits hname
  | separator hname _ => exact hdigits hname

/-- What follows a sigil is taken whole, if it is a plain or qualified name. -/
theorem not_goesOn_variableName {s : List Char} (hne : (variableName s).taken ≠ [])
    (hname : ∀ c ∈ (variableName s).taken, (c.isAlphanum || c = '_' || c = ':') = true) :
    ¬GoesOn (variableName s).taken (variableName s).rest := by
  unfold variableName at hne hname ⊢
  cases s with
  | nil => exact absurd rfl hne
  | cons c cs =>
    dsimp only at hname ⊢
    by_cases hstart : (isNameStart c || c = ':') = true
    · rw [if_pos (by simpa using hstart)]
      exact not_goesOn_qualifiedName _ _
    rw [if_neg (by simpa using hstart)] at hname ⊢
    by_cases hdigit : c.isDigit = true
    · rw [if_pos hdigit]
      exact not_goesOn_of_digits (fun d hd => List.all_eq_true.mp List.all_takeWhile d hd) _
    · -- a mark is no character of a name
      rw [if_neg hdigit] at hname
      have hc := hname c List.mem_cons_self
      simp_all [isNameStart, Char.isAlphanum]

/-- A scalar with a plain or qualified name is taken whole. -/
theorem not_goesOn_sigiledName {s : List Char}
    (htaken : (sigiledName ('$' :: s)).taken = '$' :: name) (hne : name ≠ [])
    (hname : ∀ c ∈ name, (c.isAlphanum || c = '_' || c = ':') = true) :
    ¬GoesOn name (sigiledName ('$' :: s)).rest := by
  by_cases hindex : ∃ cs, s = '#' :: cs
  · obtain ⟨cs, rfl⟩ := hindex
    obtain rfl := (List.cons.inj htaken).2
    exact absurd (hname '#' List.mem_cons_self) (by decide)
  · have htake : sigiledName ('$' :: s) = (variableName s).cons '$' := by
      unfold sigiledName
      split
      · rename_i hs
        exact absurd ⟨_, (List.cons.inj hs).2⟩ hindex
      · rename_i hs
        obtain ⟨rfl, rfl⟩ := List.cons.inj hs
        rfl
      · contradiction
    rw [htake] at htaken ⊢
    obtain rfl := (List.cons.inj htaken).2
    exact not_goesOn_variableName hne hname

end Lexeme

/-! ### Segments and their cuts -/

/-- A cut that takes something takes the first character. -/
theorem Text.Cut.head?_taken {cut : Cut} {c : Char} {cs : List Char} (h : cut.whole = c :: cs)
    (hn : cut.taken ≠ []) : cut.taken.head? = some c := by
  obtain ⟨d, ds, hd⟩ := List.exists_cons_of_ne_nil hn
  rw [Cut.whole, hd] at h
  rw [hd, (List.cons.inj h).1]
  rfl

theorem Symbol.kind_cases (s : String) :
    kind s = .delimiter ∨ kind s = .punctuation ∨ kind s = .operator := by
  unfold kind
  split
  · exact .inl rfl
  · split
    · exact .inr (.inl rfl)
    · exact .inr (.inr rfl)

namespace Context

theorem exists_cut_of_segments {ctx : Context} {cs : List Char} {before : List Segment}
    {s : Segment} {after : List Segment} (h : (ctx.segments cs).1 = before ++ s :: after) :
    ∃ (there : Context) (c : Char) (ds : List Char), cs = Segment.textOf before ++ c :: ds ∧
      s = there.segment (there.cut c ds) := by
  fun_induction segments ctx cs generalizing before with
  | case1 ctx => simp at h
  | case2 ctx c cs next u =>
    cases before with
    | nil =>
      obtain ⟨rfl, -⟩ := List.cons.inj h
      exact ⟨ctx, c, cs, rfl, rfl⟩
    | cons b before => simp at h
  | case3 ctx c cs next u =>
    rename_i more ih
    cases before with
    | nil =>
      obtain ⟨rfl, -⟩ := List.cons.inj h
      exact ⟨ctx, c, cs, rfl, rfl⟩
    | cons b before =>
      obtain ⟨rfl, htail⟩ := List.cons.inj h
      obtain ⟨there, d, ds, hds, hs⟩ := ih htail
      refine ⟨there, d, ds, ?_, hs⟩
      have hw := (ctx.whole_cut c cs).1
      rw [Text.Cut.whole, hds] at hw
      rw [← hw, Segment.textOf_cons, List.append_assoc]
      rfl

/-! ### Names -/

/-- A character that starts a name starts nothing else. -/
theorem only_isNameStart {c : Char} (h : isNameStart c = true) :
    Text.isBlank c = false ∧ c ≠ '=' ∧ c ≠ '#' ∧ quotes.contains c = false ∧
      ['$', '@', '%', '&'].contains c = false := by
  have hall : ∀ n < 0x80, let c := Char.ofNat n
      isNameStart c = true → Text.isBlank c = false ∧ c ≠ '=' ∧ c ≠ '#' ∧
        quotes.contains c = false ∧ ['$', '@', '%', '&'].contains c = false := by
    decide
  have hlt : c.toNat < 0x80 := by
    have h : ((c.isUpper || c.isLower) || decide (c = '_')) = true := h
    simp only [Bool.or_eq_true, decide_eq_true_eq] at h
    rcases h with (h | h) | rfl
    · have hu : c.toNat ≤ 0x5A := UInt32.le_iff_toNat_le.1 (of_decide_eq_true h).2
      omega
    · have hu : c.toNat ≤ 0x7A :=
        UInt32.le_iff_toNat_le.1 (of_decide_eq_true ((Bool.and_eq_true _ _).mp h).2)
      omega
    · decide
  have hc := hall c.toNat hlt
  rw [Char.ofNat_toNat] at hc
  exact hc h

theorem startsVariable_of_not_sigil {c : Char} (h : ['$', '@', '%', '&'].contains c = false)
    (afterValue : Bool) (cs : List Char) : Lexeme.startsVariable afterValue (c :: cs) = false := by
  unfold Lexeme.startsVariable
  split <;> simp_all

theorem startsPod_of_ne {c : Char} (h : c ≠ '=') (cs : List Char) :
    Lexeme.startsPod (c :: cs) = false := by
  unfold Lexeme.startsPod
  split
  · rename_i he
    exact absurd (List.cons.inj he).1 h
  · rfl

theorem cut_of_isNameStart {ctx : Context} (hdue : ctx.due = []) {c : Char}
    (h : isNameStart c = true) (cs : List Char) : ctx.cut c cs = ctx.cutWord (c :: cs) := by
  obtain ⟨hblank, hpod, hcomment, hquote, hsigil⟩ := only_isNameStart h
  unfold cut
  rw [if_neg (by simp [hdue]), if_neg (by simp [hblank]), if_neg (by simp [startsPod_of_ne hpod]),
    if_neg hcomment, if_neg (by simpa using hquote), startsVariable_of_not_sigil hsigil,
    if_neg (by simp), if_pos h]

/-- A word that is no literal is the whole name that starts there. -/
theorem cut_of_cutWord (ctx : Context) (s : List Char) :
    (ctx.cutWord s).1 = .token .identifier → (ctx.cutWord s).2 = Lexeme.qualifiedName s := by
  unfold cutWord
  dsimp only
  split
  · exact nofun
  · split
    · split
      · exact nofun
      · exact fun _ => rfl
    · exact fun _ => rfl

/-- A dollar sign starts a variable or a symbol, and no symbol is an identifier. -/
theorem cut_of_dollar {ctx : Context} (hdue : ctx.due = []) {cs : List Char}
    (h : (ctx.cut '$' cs).1 = .token .identifier) :
    (ctx.cut '$' cs).2 = Lexeme.sigiledName ('$' :: cs) := by
  unfold cut at h ⊢
  rw [if_neg (by simp [hdue]), if_neg (by decide), if_neg (by simp [startsPod_of_ne]),
    if_neg (by decide), if_neg (by decide)] at h ⊢
  split at h
  · rename_i hvariable
    rw [if_pos hvariable]
  · rw [if_neg (by decide), if_neg (by decide), if_neg (by simp)] at h
    unfold cutSymbol at h
    split at h
    · cases h
    · split at h
      · have hkind := Piece.token.inj h
        rcases Symbol.kind_cases _ with hk | hk | hk <;>
        · rw [hk] at hkind
          cases hkind
      · cases h

/-! ### Heredocs and symbols -/

/-- A character that starts nothing else starts a heredoc's marker or a symbol, if anything. -/
theorem cut_of_mark {ctx : Context} (hdue : ctx.due = []) {c : Char}
    (h : Text.isBlank c = false ∧ c ≠ '=' ∧ c ≠ '#' ∧ quotes.contains c = false ∧
      ['$', '@', '%', '&'].contains c = false ∧ isNameStart c = false ∧ c.isDigit = false ∧
      c ≠ '/') (cs : List Char) : ctx.cut c cs = ctx.cutSymbol c cs := by
  obtain ⟨hblank, hpod, hcomment, hquote, hsigil, hname, hdigit, hslash⟩ := h
  unfold cut
  rw [if_neg (by simp [hdue]), if_neg (by simp [hblank]), if_neg (by simp [startsPod_of_ne hpod]),
    if_neg hcomment, if_neg (by simpa using hquote), startsVariable_of_not_sigil hsigil,
    if_neg (by simp), if_neg (by simp [hname]), if_neg (by simp [hdigit]),
    if_neg (by simp [hslash])]

theorem marker?_of_cut {ctx : Context} {c : Char} {cs : List Char} {h : Heredoc}
    (hc : (ctx.cut c cs).1 = .heredoc h) :
    Heredoc.marker? ctx.position (c :: cs) = some (h, (ctx.cut c cs).2) := by
  revert hc
  unfold cut
  split
  · exact nofun
  split
  · exact nofun
  split
  · exact nofun
  split
  · exact nofun
  split
  · exact nofun
  split
  · exact nofun
  split
  · -- a word is never a marker
    unfold cutWord
    dsimp only
    repeat' split
    all_goals exact nofun
  split
  · exact nofun
  split
  · exact nofun
  · unfold cutSymbol
    split
    · rename_i hm
      intro he
      obtain rfl := Piece.heredoc.inj he
      exact hm
    · split <;> exact nofun

end Context

/-! ### Markers -/

namespace Heredoc

/-- How a heredoc's tag is written: bare, where it is a name, or between two quotes. -/
inductive WritesTag : Option Char → List Char → List Char → Prop
  | bare {c : Char} {cs : List Char} (h : isNameStart c = true) :
    WritesTag none (c :: cs) (c :: cs)
  | quoted {quote : Char} (tag : List Char) (h : quote = '"' ∨ quote = '\'') :
    WritesTag (some quote) tag (quote :: tag ++ [quote])

theorem newline_notMem_tag? {s t : List Char} {cut : Text.Cut} (h : tag? s = some (t, cut)) :
    '\n' ∉ cut.taken := by
  unfold tag? at h
  split at h
  · cases h
  · rename_i c cs
    split at h
    · rename_i hquote
      have hspan : '\n' ∉ cs.takeWhile fun d => d != c && d != '\n' := by
        intro hm
        simpa using List.all_eq_true.mp List.all_takeWhile _ hm
      have hc : c ≠ '\n' := by
        rintro rfl
        revert hquote
        decide
      dsimp only at h
      split at h
      · cases h
      · split at h
        · rename_i hd
          obtain ⟨-, rfl⟩ := Prod.mk.inj (Option.some.inj h)
          simp [Text.Cut.span, hd, hc.symm, hspan]
        · cases h
    · split at h
      · obtain ⟨-, rfl⟩ := Prod.mk.inj (Option.some.inj h)
        intro hm
        have := List.all_eq_true.mp List.all_takeWhile _ hm
        revert this
        decide
      · cases h

/-- A marker starts with two angle brackets and stands on one line. -/
theorem taken_marker? {p : Position} {s : List Char} {h : Heredoc} {cut : Text.Cut}
    (hm : marker? p s = some (h, cut)) :
    ['<', '<'].isPrefixOf cut.taken = true ∧ '\n' ∉ cut.taken := by
  unfold marker? at hm
  split at hm
  · obtain ⟨⟨t, u⟩, ht, he⟩ := Option.map_eq_some_iff.mp hm
    obtain ⟨-, rfl⟩ := Prod.mk.inj he
    simp [newline_notMem_tag? ht]
  · obtain ⟨⟨t, u⟩, ht, he⟩ := Option.map_eq_some_iff.mp hm
    obtain ⟨-, rfl⟩ := Prod.mk.inj he
    simp [newline_notMem_tag? ht]
  · cases hm

theorem exists_writesTag {s tag : List Char} {cut : Text.Cut} (h : tag? s = some (tag, cut)) :
    ∃ quote, WritesTag quote tag cut.taken := by
  unfold tag? at h
  split at h
  · cases h
  rename_i c cs
  split at h
  · rename_i hquote
    dsimp only at h
    split at h
    · cases h
    split at h
    · rename_i hd
      obtain ⟨rfl, rfl⟩ := Prod.mk.inj (Option.some.inj h)
      refine ⟨some c, ?_⟩
      rw [hd]
      exact .quoted _ (by simpa using hquote)
    · cases h
  · split at h
    · rename_i hstart
      obtain ⟨rfl, rfl⟩ := Prod.mk.inj (Option.some.inj h)
      refine ⟨none, ?_⟩
      unfold Text.Cut.span
      rw [List.takeWhile_cons_of_pos (isNameChar_of_isNameStart hstart)]
      exact .bare hstart
    · cases h

/-- A marker is two angle brackets, a tilde if the heredoc may be indented, and the tag. -/
theorem exists_of_marker? {p : Position} {s : List Char} {h : Heredoc} {cut : Text.Cut}
    (hm : marker? p s = some (h, cut)) :
    ∃ quote tag, WritesTag quote h.terminator tag ∧
      cut.taken = ['<', '<'] ++ (if h.indented then ['~'] else []) ++ tag := by
  unfold marker? at hm
  split at hm
  · obtain ⟨⟨tag, rest⟩, ht, he⟩ := Option.map_eq_some_iff.mp hm
    obtain ⟨quote, hquote⟩ := exists_writesTag ht
    obtain ⟨rfl, rfl⟩ := Prod.mk.inj he
    exact ⟨quote, rest.taken, hquote, rfl⟩
  · obtain ⟨⟨tag, rest⟩, ht, he⟩ := Option.map_eq_some_iff.mp hm
    obtain ⟨quote, hquote⟩ := exists_writesTag ht
    obtain ⟨rfl, rfl⟩ := Prod.mk.inj he
    exact ⟨quote, rest.taken, hquote, rfl⟩
  · cases hm

end Heredoc

theorem Symbol.newline_notMem_table {s : List Char} (h : s ∈ Symbol.table) : '\n' ∉ s := by
  revert s
  decide

/-! ### Tokens and their segments -/

namespace Segment

section Cut

variable {ctx : Context} {c : Char} {cs : List Char}

/-- Nothing but lines of heredocs is cut while there are some to come. -/
theorem due_of_isSome_kind? (h : (ctx.segment (ctx.cut c cs)).kind?.isSome = true) :
    ctx.due = [] := by
  by_contra hdue
  obtain ⟨bodies, hb⟩ := (ctx.heredocLines_cut_iff c cs).mpr hdue
  have hpiece : (ctx.segment (ctx.cut c cs)).piece = .heredocLines bodies := hb
  simp [kind?, hpiece] at h

theorem text_of_heredoc {h : Heredoc}
    (hp : (ctx.segment (ctx.cut c cs)).piece = .heredoc h) :
    ['<', '<'].isPrefixOf (ctx.segment (ctx.cut c cs)).text = true ∧
      '\n' ∉ (ctx.segment (ctx.cut c cs)).text :=
  Heredoc.taken_marker? (Context.marker?_of_cut hp)

/-- Only symbols and the markers of heredocs start with two angle brackets, and they stand on one
line. -/
theorem newline_notMem_of_isPrefixOf (hk : (ctx.segment (ctx.cut c cs)).kind?.isSome = true)
    (hp : ['<', '<'].isPrefixOf (ctx.segment (ctx.cut c cs)).text = true) :
    '\n' ∉ (ctx.segment (ctx.cut c cs)).text := by
  have hdue := due_of_isSome_kind? hk
  obtain ⟨rest, hrest⟩ := List.isPrefixOf_iff_prefix.mp hp
  have hw := (ctx.whole_cut c cs).1
  have hc : c = '<' := by
    have htaken : (ctx.cut c cs).2.taken = '<' :: '<' :: rest := hrest.symm
    rw [Text.Cut.whole, htaken] at hw
    exact (List.cons.inj hw).1.symm
  subst hc
  rw [Context.cut_of_mark hdue (by decide)] at hk ⊢
  unfold Context.cutSymbol at hk ⊢
  split
  · rename_i hm
    exact (Heredoc.taken_marker? hm).2
  · split
    · rename_i symbol hs
      have hangles := List.isPrefixOf_iff_prefix.mp (Symbol.isPrefixOf_of_ofPrefix? hs)
      have htake : ('<' :: cs).take symbol.length = symbol :=
        List.prefix_iff_eq_take.mp hangles |>.symm
      show '\n' ∉ ('<' :: cs).take symbol.length
      rw [htake]
      exact Symbol.newline_notMem_table (Symbol.mem_table_of_ofPrefix? hs)
    · simp_all [kind?, Context.segment]

theorem Shows.marker {t : Token} (h : (ctx.segment (ctx.cut c cs)).Shows t) :
    t.marker = (ctx.segment (ctx.cut c cs)).text := by
  have hk : (ctx.segment (ctx.cut c cs)).kind?.isSome = true := by rw [h.kind]; rfl
  have hline : ∀ {ds : List Char}, '\n' ∉ ds → ds.takeWhile (· != '\n') = ds := by
    intro ds hn
    rw [List.takeWhile_eq_self_iff]
    intro d hd
    simpa using ne_of_mem_of_not_mem hd hn
  unfold Token.marker
  rcases h.text with ht | ⟨heredoc, b, hp, ht⟩
  · rw [ht]
    split
    · rename_i hangles
      exact hline (newline_notMem_of_isPrefixOf hk hangles)
    · rfl
  · -- the lines of a body start with a newline
    obtain ⟨hangles, hn⟩ := text_of_heredoc hp
    have hbody : ∀ d ∈ b.text.head?, d = '\n' := by
      unfold Heredoc.Body.text
      cases b.lines <;> simp
    obtain ⟨rest, hrest⟩ := List.isPrefixOf_iff_prefix.mp hangles
    rw [ht, if_pos (List.isPrefixOf_iff_prefix.mpr ⟨rest ++ b.text, by simp [← hrest]⟩),
      List.takeWhile_append_of_pos fun d hd => by simpa using ne_of_mem_of_not_mem hd hn]
    cases hb : b.text with
    | nil => simp
    | cons d ds =>
      obtain rfl := hbody d (by rw [hb]; rfl)
      simp

/-- An identifier is cut as one, and its text is all that is taken. -/
theorem Shows.cut_of_identifier {t : Token} (h : (ctx.segment (ctx.cut c cs)).Shows t)
    (hkind : t.kind = .identifier) :
    (ctx.cut c cs).1 = .token .identifier ∧ t.text.toList = (ctx.cut c cs).2.taken ∧
      t.text.toList.head? = some c := by
  have hpiece : (ctx.cut c cs).1 = .token .identifier := by
    have := h.kind
    rw [hkind] at this
    unfold kind? Context.segment at this
    dsimp only at this
    split at this <;> simp_all
  have htext : t.text.toList = (ctx.cut c cs).2.taken := by
    rcases h.text with ht | ⟨heredoc, b, hp, -⟩
    · exact ht
    · rw [show (ctx.segment (ctx.cut c cs)).piece = (ctx.cut c cs).1 from rfl, hpiece] at hp
      cases hp
  obtain ⟨hw, hne⟩ := ctx.whole_cut c cs
  exact ⟨hpiece, htext, htext ▸ Text.Cut.head?_taken hw hne⟩

/-- A bareword ends where the name does, on the line on which it starts. -/
theorem Shows.not_goesOn_of_isBareword {t : Token} (h : (ctx.segment (ctx.cut c cs)).Shows t)
    (hb : t.isBareword = true) :
    '\n' ∉ t.text.toList ∧ ¬Lexeme.GoesOn t.text.toList (ctx.cut c cs).2.rest := by
  have hk : (ctx.segment (ctx.cut c cs)).kind?.isSome = true := by rw [h.kind]; rfl
  simp only [Token.isBareword, Bool.and_eq_true, decide_eq_true_eq] at hb
  obtain ⟨hpiece, htext, hhead⟩ := h.cut_of_identifier hb.1
  have hc : isNameStart c = true := by simpa [hhead] using hb.2
  rw [Context.cut_of_isNameStart (due_of_isSome_kind? hk) hc] at hpiece htext ⊢
  rw [Context.cut_of_cutWord _ _ hpiece] at htext ⊢
  exact ⟨htext ▸ Lexeme.newline_notMem_qualifiedName _, Lexeme.not_goesOn_qualifiedName _ _⟩

/-- So does a scalar, after its sigil. -/
theorem Shows.not_goesOn_of_isScalarVariable {t : Token}
    (h : (ctx.segment (ctx.cut c cs)).Shows t) (hs : t.isScalarVariable = true) :
    ¬Lexeme.GoesOn t.text.toList.tail (ctx.cut c cs).2.rest := by
  have hk : (ctx.segment (ctx.cut c cs)).kind?.isSome = true := by rw [h.kind]; rfl
  simp only [Token.isScalarVariable, Bool.and_eq_true, decide_eq_true_eq] at hs
  obtain ⟨⟨hsigil, hne⟩, hname⟩ := hs
  have hkind : t.kind = .identifier := by
    unfold Token.sigil? at hsigil
    split at hsigil
    · assumption
    · cases hsigil
  obtain ⟨hpiece, htext, hhead⟩ := h.cut_of_identifier hkind
  obtain rfl : c = '$' := by
    rw [Token.sigil?, if_pos hkind, hhead] at hsigil
    exact Option.some.inj (Option.filter_eq_some_iff.mp hsigil).1
  have hcut := Context.cut_of_dollar (due_of_isSome_kind? hk) hpiece
  rw [hcut] at htext ⊢
  obtain ⟨name, hcons⟩ := List.head?_eq_some_iff.mp hhead
  rw [hcons] at htext hne hname ⊢
  exact Lexeme.not_goesOn_sigiledName htext.symm hne (List.all_eq_true.mp hname)

end Cut

end Segment

/-! ### Sources -/

namespace Lexed

/-- **The place of a token.**  A token stands where the source reads its marker, and a bareword or a
scalar is a whole name there. -/
theorem reads_of_mem_tokens {content : String} {t : Token} (h : t ∈ (lex content).tokens) :
    ∃ before after, content.toList = before ++ (t.marker ++ after) ∧ t.marker ≠ [] ∧
      t.position = Position.start.afterAll before ∧
      (t.isBareword = true → '\n' ∉ t.text.toList ∧ ¬Lexeme.GoesOn t.text.toList after) ∧
      (t.isScalarVariable = true → ¬Lexeme.GoesOn t.text.toList.tail after) := by
  obtain ⟨_, s, _, hsplit, hs⟩ := exists_segment_of_mem_tokens h
  obtain ⟨htext, hposition, -⟩ := Context.place_of_segments hsplit
  obtain ⟨there, c, cs, hwhole, hcut⟩ := Context.exists_cut_of_segments hsplit
  rw [hcut] at hs htext
  refine ⟨_, (there.cut c cs).2.rest, ?_, ?_, hs.position.trans (hcut ▸ hposition),
    hs.not_goesOn_of_isBareword, hs.not_goesOn_of_isScalarVariable⟩
  · rw [hs.marker, hwhole]
    exact congrArg _ (there.whole_cut c cs).1.symm
  · rw [hs.marker]
    exact htext

end Lexed

end WordRole
