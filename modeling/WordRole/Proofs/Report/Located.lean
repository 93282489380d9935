import WordRole.Proofs.Analysis.Abort
import WordRole.Proofs.Document.Reloaded
import WordRole.Proofs.Lexing.Words
import WordRole.Proofs.Report.Outcome
import WordRole.Proofs.Slot.Fitting

/-!
# Where a report points

A report on a source points at the words that it speaks of, in the order in which they stand, and
where it is given up it points at the comparator after all of them (`CodeUnit.findings_located`).

* `Position.Reads`: what a reader finds at a line and column;
* `Analyzer.exists_sublist_of_run`: the tokens that a report speaks of, in the order of the tokens.
-/

namespace WordRole

/-! ### Lines and columns -/

namespace Position

/-- What a reader finds at a line and column of a source, both counted from 1: what is left of that
line, which is something, and the lines below it. -/
def Reads (p : Position) (source line : List Char) (below : List (List Char)) : Prop :=
  ∃ above front, Text.AreLines (above ++ (front ++ line) :: below) source ∧
    p.line = above.length + 1 ∧ p.column = front.length + 1 ∧ line ≠ []

/-- After a text a reader finds what follows it. -/
theorem exists_reads_afterAll (before : List Char) {rest : List Char} (h : rest ≠ []) :
    ∃ line below, (start.afterAll before).Reads (before ++ rest) line below ∧
      line ++ below.flatten = rest := by
  obtain ⟨above, front, line, below, hlines, habove, hfront, hline, hrest⟩ :=
    (Text.areLines_lines (before ++ rest)).exists_line_at rfl h
  refine ⟨line, below, ⟨above, front, hlines ▸ Text.areLines_lines _, ?_, ?_, hline⟩, hrest⟩
  · rw [afterAll_start, habove]
    exact Nat.add_comm 1 _
  · rw [afterAll_start, hfront]
    exact Nat.add_comm 1 _

/-- A text without newlines is read on one line. -/
theorem Reads.exists_left {p : Position} {source line text after : List Char}
    {below : List (List Char)} (h : p.Reads source line below)
    (hwhole : line ++ below.flatten = text ++ after) (htext : '\n' ∉ text) :
    ∃ left, line = text ++ left ∧ after = left ++ below.flatten := by
  obtain ⟨above, front, hlines, -, -, hne⟩ := h
  rcases List.append_eq_append_iff.mp hwhole with ⟨more, rfl, hbelow⟩ | hleft
  · -- nothing of the text is left for the lines below
    rcases hlines.ends_or_last with hend | rfl
    · rw [List.getLast?_append_of_ne_nil front hne] at hend
      exact absurd (List.mem_append_left more (List.mem_of_getLast? hend)) htext
    · obtain ⟨rfl, rfl⟩ := List.append_eq_nil_iff.mp hbelow.symm
      exact ⟨[], by simp, rfl⟩
  · exact hleft

end Position

/-! ### Words and scalars -/

namespace Token

theorem toList_text_of_isScalarVariable {t : Token} (h : t.isScalarVariable = true) :
    t.text.toList = '$' :: t.name.toList := by
  simp only [isScalarVariable, Bool.and_eq_true, decide_eq_true_eq] at h
  obtain ⟨⟨hsigil, -⟩, hall⟩ := h
  have hhead : t.text.toList.head? = some '$' := by
    unfold sigil? at hsigil
    split at hsigil
    · exact (Option.filter_eq_some_iff.mp hsigil).1
    · cases hsigil
  obtain ⟨cs, hcs⟩ := List.head?_eq_some_iff.mp hhead
  rw [hcs] at hall
  -- the name itself has no sigil in it, so only the first one is dropped
  have hdrop : cs.dropWhile (· = '$') = cs := by
    cases cs with
    | nil => rfl
    | cons c cs =>
      have hc : c ≠ '$' := by
        rintro rfl
        have hdollar := List.all_eq_true.mp hall '$' List.mem_cons_self
        exact absurd hdollar (by decide)
      simp [hc]
  rw [name, hsigil, hcs]
  simp [hdrop]

theorem newline_notMem_of_isScalarVariable {t : Token} (h : t.isScalarVariable = true) :
    '\n' ∉ t.text.toList := by
  have htext := toList_text_of_isScalarVariable h
  simp only [isScalarVariable, htext, List.tail_cons, Bool.and_eq_true] at h
  intro hmem
  rw [htext] at hmem
  rcases List.mem_cons.mp hmem with hmem | hmem
  · exact absurd hmem (by decide)
  · exact absurd (List.all_eq_true.mp h.2 '\n' hmem) (by decide)

end Token

/-- How the word of a classification is written: a handle is declared with its sigil. -/
def Classification.written (c : Classification) : List Char :=
  if c.slot = .lexicalHandleDeclaration then '$' :: c.name.toList else c.name.toList

/-! ### The tokens of a report -/

namespace Analyzer

/-- The classifications of a report are those of tokens in their order, and the fault of a report
is that of a token after these. -/
theorem exists_sublist_of_run (ts : List SlottedToken) (notices : List Notice) (unit : String)
    (mode : Mode) :
    let report := (start ts notices).run unit mode
    ∃ us, List.Forall₂ Classification.IsOf report.classifications us ∧
      (∀ u ∈ us, u.holdsWord = true) ∧
      (report.abort = none ∧ us.Sublist ts ∨
        ∃ t, report.abort = some t.fault ∧ (us ++ [t]).Sublist ts) := by
  intro report
  cases hfind : ts.find? (·.isFault) with
  | none =>
    have hno : ∀ t ∈ ts, t.isFault = false := by simpa using List.find?_eq_none.mp hfind
    refine ⟨ts.filter (·.holdsWord), ?_, fun u hu => (List.mem_filter.mp hu).2, .inl ⟨?_, ?_⟩⟩
    · show List.Forall₂ _ ((start ts notices).run unit mode).classifications _
      rw [classifications_run]
      exact (forall₂_items (a := start ts notices) rfl hno none).2
    · show ((start ts notices).run unit mode).abort = none
      rw [run_eq_finish_pass]
      exact abort_pass_of_not_isFault rfl hno none
    · exact List.filter_sublist
  | some t =>
    obtain ⟨ht, before, after, rfl, hbefore⟩ := List.find?_eq_some_iff_append.mp hfind
    have hb : ∀ u ∈ before, u.isFault = false := by simpa using hbefore
    have hreport := run_of_isFault hb ht notices after unit mode
    refine ⟨before.filter (·.holdsWord), ?_, fun u hu => (List.mem_filter.mp hu).2,
      .inr ⟨t, congrArg Report.abort hreport, ?_⟩⟩
    · rw [show report.classifications = _ from congrArg Report.classifications hreport]
      dsimp only
      rw [classifications_pass]
      exact (forall₂_items (a := start [] notices) rfl hb (some t.token)).2
    · exact List.filter_sublist.append (List.cons_sublist_cons.mpr (List.nil_sublist after))

end Analyzer

/-! ### Reports on sources -/

namespace Lexed

/-- At its line and column a token of a source is read. -/
theorem exists_reads_of_mem_tokens {content : String} {t : Token}
    (h : t ∈ (lex content).tokens) :
    t.marker ≠ [] ∧ ∃ after line below, t.position.Reads content.toList line below ∧
      line ++ below.flatten = t.marker ++ after ∧
      (t.isBareword = true → '\n' ∉ t.text.toList ∧ ¬Lexeme.GoesOn t.text.toList after) ∧
      (t.isScalarVariable = true → ¬Lexeme.GoesOn t.text.toList.tail after) := by
  obtain ⟨before, after, hwhole, hmarker, hposition, hnames⟩ := reads_of_mem_tokens h
  obtain ⟨line, below, hreads, hrest⟩ :=
    Position.exists_reads_afterAll before (List.append_ne_nil_of_left_ne_nil hmarker after)
  exact ⟨hmarker, after, line, below, hwhole ▸ hposition ▸ hreads, hrest, hnames⟩

end Lexed

namespace CodeUnit

variable {t : SlottedToken} {c : Classification}

theorem pairwise_tokens_ofSource (name content : String) :
    (ofSource name content).tokens.Pairwise
      fun t u => t.token.position.Precedes u.token.position := by
  have h := Lexed.pairwise_tokens content
  rwa [← map_tokens_ofSource name, List.pairwise_map] at h

/-- The word of a token with an inferred slot is what stands at the token: a word, or a scalar if it
is a handle that is declared. -/
theorem written_eq_marker {ts : List Token} (ht : t ∈ SlottedToken.infer ts)
    (hw : t.holdsWord = true) (hc : c.IsOf t) :
    c.written = t.token.marker ∧ t.token.marker = t.token.text.toList ∧
      (t.token.isBareword = true ∧ t.token.text = c.name ∨
        t.token.isScalarVariable = true ∧ t.token.text.toList = '$' :: c.name.toList) := by
  obtain ⟨before, u, rest, rfl, s, hs, rfl⟩ :=
    SlottedToken.exists_mem_infer_iff.mp ⟨t, ht, (rfl : t = t)⟩
  obtain rfl : s = some c.slot := hc.slot
  have hname : c.name = u.name := hc.name
  rw [Classification.written, hname]
  by_cases hslot : c.slot = .lexicalHandleDeclaration
  · have hscalar : u.isScalarVariable = true := by
      have hsuits := Slot.suits_of_infer hs
      rw [hslot] at hsuits
      exact hsuits
    have htext := Token.toList_text_of_isScalarVariable hscalar
    rw [if_pos hslot, Token.marker_of_head?_ne (by simp [htext])]
    exact ⟨htext.symm, rfl, .inr ⟨hscalar, htext⟩⟩
  · have hb : u.isBareword = true := by
      unfold SlottedToken.holdsWord at hw
      revert hw hslot
      cases c.slot <;> simp
    have hstart : u.text.toList.head? ≠ some '<' := by
      simp only [Token.isBareword, Bool.and_eq_true] at hb
      intro hlt
      rw [hlt] at hb
      exact absurd hb.2 (by decide)
    rw [if_neg hslot, Token.marker_of_head?_ne hstart, Token.name_of_isBareword hb]
    exact ⟨rfl, rfl, .inl ⟨hb, rfl⟩⟩

/-- At the line and column of a token the source reads the classified word, and the whole of it. -/
theorem exists_reads_written {name content : String} (ht : t ∈ (ofSource name content).tokens)
    (hw : t.holdsWord = true) (hc : c.IsOf t) :
    c.name ≠ "" ∧ ∃ after below, c.position.Reads content.toList (c.written ++ after) below ∧
      ¬Lexeme.GoesOn c.name.toList after := by
  obtain ⟨hwritten, hmarker, hword⟩ := written_eq_marker ht hw hc
  obtain ⟨-, after, line, below, hreads, hwhole, hbareword, hscalar⟩ :=
    Lexed.exists_reads_of_mem_tokens (mem_lex_of_mem_ofSource ht)
  have hends : c.name ≠ "" ∧ '\n' ∉ c.written ∧ ¬Lexeme.GoesOn c.name.toList after := by
    rw [hwritten, hmarker]
    rcases hword with ⟨hb, hname⟩ | ⟨hs, hname⟩
    · rw [← hname]
      refine ⟨?_, hbareword hb⟩
      rintro hempty
      simp [Token.isBareword, hempty] at hb
    · have hends := hscalar hs
      rw [hname] at hends
      refine ⟨?_, Token.newline_notMem_of_isScalarVariable hs, hends⟩
      rintro hempty
      simp [Token.isScalarVariable, hname, hempty] at hs
  rw [← hwritten] at hwhole
  obtain ⟨hne, hline, hends⟩ := hends
  obtain ⟨left, rfl, rfl⟩ := hreads.exists_left hwhole hline
  exact ⟨hne, left, below, hc.position ▸ hreads, fun h => hends (h.append _)⟩

/-- **Where a report points.**  The classifications of the report on a source stand in reading
order.  At the line and column of each the source reads the classified word, a declared handle with
its sigil, and there the name ends.  A report that is given up points at a place after all of these,
where the source reads the marker of the rejected token. -/
theorem findings_located (name content : String) (mode : Mode) :
    let source := content.toList
    let report := (ofSource name content).report mode
    report.classifications.Pairwise (fun c d => c.position.line < d.position.line ∨
      c.position.line = d.position.line ∧ c.position.column < d.position.column) ∧
    (∀ c ∈ report.classifications, c.name ≠ "" ∧ ∃ after below,
      c.position.Reads source (c.written ++ after) below ∧
      ¬Lexeme.GoesOn c.name.toList after) ∧
    (report.outcome = .aborted → ∃ e t line below, report.abort = some e ∧
      (∀ c ∈ report.classifications, c.position.line < e.position.line ∨
        c.position.line = e.position.line ∧ c.position.column < e.position.column) ∧
      t ∈ (lex content).tokens ∧ e = ⟨t.text, t.position⟩ ∧ t.marker ≠ [] ∧
      e.position.Reads source line below ∧ t.marker <+: line ++ below.flatten) := by
  intro source report
  obtain ⟨us, hof, hwords, hus⟩ := Analyzer.exists_sublist_of_run (ofSource name content).tokens
    (ofSource name content).notices name mode
  change List.Forall₂ _ report.classifications us at hof
  have hsub : us.Sublist (ofSource name content).tokens := by
    rcases hus with ⟨-, h⟩ | ⟨t, -, h⟩
    · exact h
    · exact (List.sublist_append_left us [t]).trans h
  have horder := pairwise_tokens_ofSource name content
  have hpositions : report.classifications.map (·.position) = us.map (·.token.position) :=
    map_eq_map_of_forall₂ (hof.imp fun c u h => h.position)
  refine ⟨?_, ?_, ?_⟩
  · show report.classifications.Pairwise fun c d => c.position.Precedes d.position
    rw [← List.pairwise_map, hpositions, List.pairwise_map]
    exact horder.sublist hsub
  · intro c hc
    obtain ⟨i, hi, rfl⟩ := List.getElem_of_mem hc
    have hlt := hof.length_eq ▸ hi
    have hu : us[i] ∈ us := List.getElem_mem hlt
    exact exists_reads_written (hsub.subset hu) (hwords _ hu) (hof.get hi hlt)
  · intro houtcome
    rcases hus with ⟨hnone, -⟩ | ⟨t, habort, hsublist⟩
    · have hnone : report.abort = none := hnone
      have hsome : report.abort.isSome = true := Findings.outcome_eq_aborted_iff.mp houtcome
      rw [hnone] at hsome
      cases hsome
    · have hmem := mem_lex_of_mem_ofSource (hsublist.subset (List.mem_append_right us (.head [])))
      obtain ⟨hmarker, after, line, below, hreads, hwhole, -⟩ :=
        Lexed.exists_reads_of_mem_tokens hmem
      refine ⟨t.fault, t.token, line, below, habort, ?_, hmem, rfl, hmarker, hreads,
        after, hwhole.symm⟩
      have hlast : ∀ u ∈ us, u.token.position.Precedes t.token.position := fun u hu =>
        (List.pairwise_append.mp (horder.sublist hsublist)).2.2 u hu t (.head [])
      intro c hc
      obtain ⟨u, hu, hp⟩ := List.mem_map.mp (hpositions ▸ List.mem_map_of_mem hc)
      exact hp ▸ hlast u hu

end CodeUnit

end WordRole
