import WordRole.Proofs.Lexing.Scanners
import WordRole.Proofs.Lexing.Words

/-!
# The grammar of tokens

What the tokens of each kind look like (`TokenKind.Admits`), whatever the source is.  Names and
symbols are the longest ones where they stand (`Text.IsLongest`), although other scanners are asked
before those of names and symbols are.

* `Lexeme.isLongest_qualifiedName`, `Symbol.isLongest_ofPrefix?`: what these scanners take;
* `Context.admitted_cut`: the next token is one that its kind admits;
* `Lexed.admits_of_mem_tokens`: so is every token of a source.
-/

namespace WordRole

open Text (Cut)

/-! ### Longest beginnings -/

/-- A beginning of a text is the longest one of its kind, where `after` is the text after it. -/
def Text.IsLongest (p : List Char → Prop) (text after : List Char) : Prop :=
  p text ∧ ∀ longer, p longer → longer <+: text ++ after → longer.length ≤ text.length

/-! ### Names -/

namespace Lexeme

/-- A letter or an underscore, and characters of names after it. -/
def IsName (cs : List Char) : Prop :=
  ∃ c ds, cs = c :: ds ∧ isNameStart c = true ∧ ∀ d ∈ ds, isNameChar d = true

/-- A name, or several ones with `::` between them. -/
inductive IsQualifiedName : List Char → Prop
  | name {n : List Char} (h : IsName n) : IsQualifiedName n
  | qualified {n q : List Char} (h : IsName n) (hq : IsQualifiedName q) :
      IsQualifiedName (n ++ ':' :: ':' :: q)

theorem isName_singleton {c : Char} (h : isNameStart c = true) : IsName [c] :=
  ⟨c, [], rfl, h, by simp⟩

theorem IsName.concat {n : List Char} (h : IsName n) {c : Char} (hc : isNameChar c = true) :
    IsName (n ++ [c]) := by
  obtain ⟨d, ds, rfl, hd, hds⟩ := h
  refine ⟨d, ds ++ [c], rfl, hd, fun e he => ?_⟩
  rcases List.mem_append.mp he with he | he
  · exact hds e he
  · rwa [List.mem_singleton.mp he]

theorem IsName.isNameChar_of_mem {n : List Char} (h : IsName n) : ∀ c ∈ n, isNameChar c = true := by
  obtain ⟨d, ds, rfl, hd, hds⟩ := h
  intro c hc
  rcases List.mem_cons.mp hc with rfl | hc
  · exact isNameChar_of_isNameStart hd
  · exact hds c hc

theorem IsQualifiedName.exists_cons {q : List Char} (h : IsQualifiedName q) :
    ∃ c ds, q = c :: ds ∧ isNameStart c = true := by
  cases h with
  | name h =>
    obtain ⟨c, ds, rfl, hc, -⟩ := h
    exact ⟨c, ds, rfl, hc⟩
  | qualified h hq =>
    obtain ⟨c, ds, rfl, hc, -⟩ := h
    exact ⟨c, _, rfl, hc⟩

/-- What is taken goes on with any name before it. -/
theorem isQualifiedName_append_taken (s : List Char) {n : List Char} (h : IsName n) :
    IsQualifiedName (n ++ (qualifiedName s).taken) := by
  fun_induction qualifiedName s generalizing n with
  | case1 c cs hc ih => exact .qualified h (ih (isName_singleton hc))
  | case2 => simpa [Cut.nothing] using IsQualifiedName.name h
  | case3 c cs _ hc ih => simpa using ih (h.concat hc)
  | case4 => simpa [Cut.nothing] using IsQualifiedName.name h
  | case5 => simpa [Cut.nothing] using IsQualifiedName.name h

theorem qualifiedName_of_isNameChars {n : List Char} (h : ∀ c ∈ n, isNameChar c = true)
    (s : List Char) : qualifiedName (n ++ s) = (qualifiedName s).after n := by
  induction n with
  | nil => rfl
  | cons c n ih =>
    rw [List.cons_append, qualifiedName_of_isNameChar (h c List.mem_cons_self),
      ih fun d hd => h d (List.mem_cons_of_mem c hd)]
    rfl

/-- A qualified name is taken whole. -/
theorem qualifiedName_append {q : List Char} (h : IsQualifiedName q) (s : List Char) :
    qualifiedName (q ++ s) = (qualifiedName s).after q := by
  induction h with
  | name h => exact qualifiedName_of_isNameChars h.isNameChar_of_mem s
  | @qualified n q h hq ih =>
    obtain ⟨c, ds, rfl, hc⟩ := hq.exists_cons
    rw [List.cons_append, qualifiedName_of_isNameChar (isNameChar_of_isNameStart hc)] at ih
    rw [List.append_assoc, qualifiedName_of_isNameChars h.isNameChar_of_mem]
    simp only [List.cons_append]
    rw [qualifiedName_of_separator hc, ih]
    simp [Cut.after, Cut.cons]

theorem isLongest_qualifiedName {c : Char} (h : isNameStart c = true) (cs : List Char) :
    Text.IsLongest IsQualifiedName (qualifiedName (c :: cs)).taken
      (qualifiedName (c :: cs)).rest := by
  refine ⟨?_, ?_⟩
  · rw [qualifiedName_of_isNameChar (isNameChar_of_isNameStart h)]
    exact isQualifiedName_append_taken cs (isName_singleton h)
  · rintro longer hlonger ⟨rest, hrest⟩
    have hwhole : longer ++ rest = c :: cs := hrest.trans (whole_qualifiedName (c :: cs))
    rw [← hwhole, qualifiedName_append hlonger]
    simp

end Lexeme

/-! ### Symbols -/

namespace Symbol

theorem pairwise_table : table.Pairwise fun s u => u.length ≤ s.length := by decide

/-- The first symbol that a text starts with is the longest one. -/
theorem isLongest_ofPrefix? {cs s : List Char} (h : ofPrefix? cs = some s) :
    cs.take s.length = s ∧ Text.IsLongest (· ∈ table) s (cs.drop s.length) := by
  have hprefix : s <+: cs := List.isPrefixOf_iff_prefix.mp (isPrefixOf_of_ofPrefix? h)
  have htake : cs.take s.length = s := (List.prefix_iff_eq_take.mp hprefix).symm
  refine ⟨htake, mem_table_of_ofPrefix? h, fun longer hmem hlonger => ?_⟩
  have hwhole : s ++ cs.drop s.length = cs := by
    have h := List.take_append_drop s.length cs
    rwa [htake] at h
  rw [hwhole] at hlonger
  obtain ⟨-, front, back, htable, hfront⟩ := List.find?_eq_some_iff_append.mp h
  have hpairwise := pairwise_table
  rw [htable] at hmem hpairwise
  rcases List.mem_append.mp hmem with hmem | hmem
  · -- those before it in the table start no such text
    have hno := hfront longer hmem
    rw [List.isPrefixOf_iff_prefix.mpr hlonger] at hno
    cases hno
  · rcases List.mem_cons.mp hmem with rfl | hmem
    · exact Nat.le_refl _
    · exact List.rel_of_pairwise_cons (List.pairwise_append.mp hpairwise).2.1 hmem

end Symbol

/-! ### Tokens -/

/-- **The grammar.**  What a token of each kind is, where `after` is the text after it: a whole name
that ends no code, or a variable; a number by its first digit; a literal by what opens it; and the
longest symbol there. -/
def TokenKind.Admits (kind : TokenKind) (text after : List Char) : Prop :=
  match kind with
  | .identifier =>
    (Text.IsLongest Lexeme.IsQualifiedName text after ∧
        text ≠ "__END__".toList ∧ text ≠ "__DATA__".toList) ∨
      ∃ c ∈ text.head?, c ∈ ['$', '@', '%', '&']
  | .number => ∃ c ∈ text.head?, c.isDigit = true
  | .stringLiteral =>
    (∃ c ∈ text.head?, c ∈ ['"', '\'', '\x60', '/']) ∨ ['<', '<'] <+: text ∨
      ∃ word ∈ ["q", "qq", "qw", "qr", "m", "s", "tr", "y"], ∃ more,
        text = word.toList ++ more ∧ ∃ c ∈ more.head?, isNameChar c = false
  | .delimiter | .punctuation | .operator =>
    Text.IsLongest (· ∈ Symbol.table) text after ∧ kind = Symbol.kind (String.ofList text)

theorem Lexeme.taken_quoted?_ne_nil {word : String} {s : List Char} {d : Delimited}
    (h : quoted? word s = some d) : d.cut.taken ≠ [] := by
  unfold quoted? at h
  dsimp only at h
  split at h
  · cases h
  · split at h
    · obtain rfl := Option.some.inj h
      simp
    · cases h

namespace Context

/-- Whether what is cut is a token that its kind admits, if it is a token. -/
def Admitted (p : Piece × Cut) : Prop :=
  match p.1 with
  | .token kind => kind.Admits p.2.taken p.2.rest
  | .literal _ | .heredoc _ => TokenKind.Admits .stringLiteral p.2.taken p.2.rest
  | _ => True

theorem admitted_cutWord (ctx : Context) {c : Char} (cs : List Char) (h : isNameStart c = true) :
    Admitted (ctx.cutWord (c :: cs)) := by
  have hlongest := Lexeme.isLongest_qualifiedName h cs
  have hrest := Lexeme.head?_rest_qualifiedName (c :: cs)
  unfold cutWord
  dsimp only
  split
  · trivial
  rename_i hend
  have hname : TokenKind.Admits .identifier (Lexeme.qualifiedName (c :: cs)).taken
      (Lexeme.qualifiedName (c :: cs)).rest := by
    refine .inl ⟨hlongest, ?_, ?_⟩ <;>
    · intro he
      rw [he] at hend
      exact hend (by decide)
  split
  · rename_i hquote
    have hword := (Bool.and_eq_true _ _).mp hquote |>.2
    split
    · -- a quote word, and what it opens a literal with
      rename_i literal hl
      have htaken := Lexeme.taken_quoted?_ne_nil hl
      have hwhole := Lexeme.whole_quoted? hl
      obtain ⟨d, ds, hd⟩ := List.exists_cons_of_ne_nil htaken
      refine .inr (.inr ⟨_, List.contains_iff_mem.mp hword, literal.cut.taken, by simp, d, ?_, ?_⟩)
      · rw [hd]
        rfl
      · refine hrest d ?_
        rw [← hwhole, Cut.whole, hd]
        rfl
    · exact hname
  · exact hname

theorem admitted_cutSymbol (ctx : Context) (c : Char) (cs : List Char) :
    Admitted (ctx.cutSymbol c cs) := by
  unfold cutSymbol
  split
  · rename_i hm
    exact .inr (.inl (List.isPrefixOf_iff_prefix.mp (Heredoc.taken_marker? hm).1))
  · split
    · rename_i symbol hs
      obtain ⟨htake, hlongest⟩ := Symbol.isLongest_ofPrefix? hs
      unfold Admitted
      dsimp only [Cut.first]
      rw [htake]
      rcases Symbol.kind_cases (String.ofList symbol) with hkind | hkind | hkind <;>
      · rw [hkind]
        exact ⟨hlongest, hkind.symm⟩
    · trivial

theorem admitted_cut (ctx : Context) (c : Char) (cs : List Char) : Admitted (ctx.cut c cs) := by
  unfold cut
  split
  · trivial
  split
  · trivial
  split
  · trivial
  split
  · trivial
  split
  · rename_i hquote
    refine .inl ⟨c, rfl, ?_⟩
    have hc := List.contains_iff_mem.mp hquote
    revert hc
    simp only [quotes, List.mem_cons]
    tauto
  split
  · rename_i hvariable
    -- nothing but a sigil starts a variable
    have hsigil : ['$', '@', '%', '&'].contains c = true := by
      by_contra hno
      rw [startsVariable_of_not_sigil (by simpa using hno)] at hvariable
      cases hvariable
    exact .inr ⟨c, Cut.head?_taken (Lexeme.whole_sigiledName _)
      (Lexeme.taken_sigiledName_ne_nil c cs), List.contains_iff_mem.mp hsigil⟩
  split
  · rename_i hname
    exact ctx.admitted_cutWord cs hname
  split
  · rename_i hdigit
    exact ⟨c, Cut.head?_taken (Lexeme.whole_number _) (Lexeme.taken_number_ne_nil cs hdigit),
      hdigit⟩
  split
  · exact .inl ⟨'/', rfl, by decide⟩
  · exact ctx.admitted_cutSymbol c cs

end Context

/-! ### Sources -/

namespace Segment.Shows

variable {ctx : Context} {c : Char} {cs : List Char} {t : Token}
  (h : (ctx.segment (ctx.cut c cs)).Shows t)

include h

theorem admits : t.kind.Admits t.text.toList (ctx.cut c cs).2.rest := by
  have hadmitted := ctx.admitted_cut c cs
  obtain ⟨hkind, -, htext⟩ := h
  unfold Context.Admitted at hadmitted
  unfold Segment.kind? Context.segment at hkind
  unfold Context.segment at htext
  cases hpiece : (ctx.cut c cs).1 with
  | token kind =>
    simp only [hpiece, Option.some_inj, reduceCtorEq, false_and, exists_const, or_false]
      at hadmitted hkind htext
    rw [← hkind, htext]
    exact hadmitted
  | literal closed =>
    simp only [hpiece, Option.some_inj, reduceCtorEq, false_and, exists_const, or_false]
      at hadmitted hkind htext
    rw [← hkind, htext]
    exact hadmitted
  | heredoc heredoc =>
    -- the lines of the body come after the marker
    simp only [hpiece, Option.some_inj] at hkind
    have hangles := List.isPrefixOf_iff_prefix.mp (text_of_heredoc hpiece).1
    have hbegins : (ctx.cut c cs).2.taken <+: t.text.toList := by
      rcases htext with ht | ⟨-, b, -, ht⟩
      · exact ht ▸ List.prefix_rfl
      · exact ht ▸ List.prefix_append _ _
    rw [← hkind]
    exact .inr (.inl (hangles.trans hbegins))
  | _ =>
    rw [hpiece] at hkind
    cases hkind

/-- Only the text of a heredoc's marker goes on after what stands at the token. -/
theorem marker_eq_or : t.marker = t.text.toList ∨
    t.kind = .stringLiteral ∧ t.marker <+: t.text.toList := by
  rw [h.marker]
  rcases h.text with ht | ⟨heredoc, b, hpiece, -⟩
  · exact .inl ht.symm
  · have hkind := h.kind
    rw [kind?, hpiece] at hkind
    exact .inr ⟨(Option.some.inj hkind).symm, h.begins⟩

end Segment.Shows

/-- **The grammar of a source.**  Every token has a text, and its kind admits it where it stands. -/
theorem Lexed.admits_of_mem_tokens {content : String} {t : Token}
    (h : t ∈ (lex content).tokens) :
    t.text ≠ "" ∧ ∃ before after, content.toList = before ++ (t.marker ++ after) ∧
      t.position = Position.start.afterAll before ∧
      (t.marker = t.text.toList ∨ t.kind = .stringLiteral ∧ t.marker <+: t.text.toList) ∧
      t.kind.Admits t.text.toList after := by
  obtain ⟨_, s, _, hsplit, hs⟩ := exists_segment_of_mem_tokens h
  obtain ⟨htext, hposition, -⟩ := Context.place_of_segments hsplit
  obtain ⟨there, c, cs, hwhole, hcut⟩ := Context.exists_cut_of_segments hsplit
  rw [hcut] at hs htext
  refine ⟨?_, _, _, ?_, hs.position.trans (hcut ▸ hposition), hs.marker_eq_or, hs.admits⟩
  · intro hempty
    have hbegins := hs.begins
    rw [hempty] at hbegins
    exact htext (List.prefix_nil.mp hbegins)
  · rw [hs.marker, hwhole]
    exact congrArg _ (there.whole_cut c cs).1.symm

/-- The separator at the end of `A::b::` is no part of the name, which is the longest one there. -/
theorem Lexed.admits_of_mem_tokens_qualified :
    let t : Token := ⟨.identifier, "A::b", ⟨1, 2⟩⟩
    t ∈ (lex "-A::b::").tokens ∧ t.text ≠ "" ∧
      ∃ before after, "-A::b::".toList = before ++ (t.marker ++ after) ∧
        t.position = Position.start.afterAll before ∧
        (t.marker = t.text.toList ∨ t.kind = .stringLiteral ∧ t.marker <+: t.text.toList) ∧
        t.kind.Admits t.text.toList after := by
  have h : (⟨.identifier, "A::b", ⟨1, 2⟩⟩ : Token) ∈ (lex "-A::b::").tokens := by decide +kernel
  exact ⟨h, Lexed.admits_of_mem_tokens h⟩

end WordRole
