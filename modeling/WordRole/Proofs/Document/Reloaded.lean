import WordRole.Proofs.Analysis.Pass
import WordRole.Proofs.Document.RoundTrip
import WordRole.Proofs.Lexing.Places

/-!
# Sources and their documents

What the lexer makes of a source is a document: no token is empty, and the tokens are listed in the
order in which they stand in the source.  So a unit of a source may be written as its document and
loaded again, and is then analysed as before (`CodeUnit.reloaded`).  Only the notices of the lexer
are not in the document.
-/

namespace WordRole

namespace Document

theorem sound_of_mem_lex {content : String} {t : Token} (h : t ∈ (lex content).tokens) :
    Sound t := by
  obtain ⟨before, text, after, -, htext, hbegins, hposition⟩ := Lexed.exists_of_mem_tokens h
  obtain ⟨hline, hcolumn, -⟩ := Position.bounds_afterAll before
  rw [← hposition] at hline hcolumn
  refine ⟨?_, hline, hcolumn⟩
  rintro hempty
  rw [hempty] at hbegins
  exact htext (List.prefix_nil.mp hbegins)

/-- The places of a source are no larger than the source is long. -/
theorem bounded_of_mem_lex {content : String} (hlength : content.length < UInt64.size) {t : Token}
    (h : t ∈ (lex content).tokens) : Bounded t := by
  obtain ⟨before, text, after, hwhole, htext, -, hposition⟩ := Lexed.exists_of_mem_tokens h
  obtain ⟨-, -, hline, hcolumn⟩ := Position.bounds_afterAll before
  rw [← hposition] at hline hcolumn
  have hbefore : before.length < content.length := by
    have := List.length_pos_iff.mpr htext
    rw [← String.length_toList, hwhole]
    simp only [List.length_append]
    omega
  constructor <;> omega

theorem inOrder_lex (content : String) : InOrder ((lex content).tokens.map (·.position)) := by
  have hpairwise : ((lex content).tokens.map (·.position)).Pairwise Position.Precedes :=
    List.pairwise_map.mpr (Lexed.pairwise_tokens content)
  exact (hpairwise.imp Position.Precedes.asymm).isChain

end Document

namespace CodeUnit

theorem map_tokens_ofSource (name content : String) :
    (ofSource name content).tokens.map (·.token) = (lex content).tokens :=
  SlottedToken.map_token_infer _

theorem mem_lex_of_mem_ofSource {name content : String} {t : SlottedToken}
    (h : t ∈ (ofSource name content).tokens) : t.token ∈ (lex content).tokens := by
  rw [← map_tokens_ofSource name]
  exact List.mem_map_of_mem h

theorem admits_ofSource (name : String) {content : String}
    (hlength : content.length < UInt64.size) : Document.Admits (ofSource name content).tokens where
  sound _ ht := Document.sound_of_mem_lex (mem_lex_of_mem_ofSource ht)
  bounded _ ht := Document.bounded_of_mem_lex hlength (mem_lex_of_mem_ofSource ht)
  inOrder := by
    have horder := Document.inOrder_lex content
    rwa [← map_tokens_ofSource name, List.map_map] at horder

theorem ofDocument_ofSource (name : String) {content : String}
    (hlength : content.length < UInt64.size) (fallback : String) :
    ofDocument fallback (ofSource name content).document.toJson.pretty =
      .ok ⟨name, (ofSource name content).tokens, []⟩ :=
  ofDocument_document (admits_ofSource name hlength) fallback

/-- **Sources and documents.**  The unit of a source is loaded from its document as it was, without
the notices of the lexer, and its analysis comes to the same.  Lines and columns are read as numbers
of 64 bits, which those of a source that is no longer than that all are. -/
theorem reloaded (name content fallback : String) (hlength : content.length < UInt64.size) :
    let source := ofSource name content
    ∃ loaded, ofDocument fallback source.document.toJson.pretty = .ok loaded ∧
      loaded.name = name ∧ loaded.tokens = source.tokens ∧
      ∀ mode, let before := source.report mode
        let after := loaded.report mode
        after.classifications = before.classifications ∧ after.abort = before.abort ∧
          after.outcome = before.outcome ∧
          before.notices = (lex content).notices ++ after.notices := by
  intro source
  refine ⟨_, ofDocument_ofSource name hlength fallback, rfl, rfl, fun mode => ?_⟩
  have hrun : source.report mode =
      (Analyzer.start source.tokens source.notices).run name mode := rfl
  dsimp only
  rw [hrun, Analyzer.run_start]
  exact ⟨rfl, rfl, rfl, rfl⟩

/-- The string in `f => "g` never ends, which only the lexer tells. -/
theorem reloaded_unterminated :
    "f => \"g".length < UInt64.size ∧
    let source := ofSource "unit" "f => \"g"
    ∃ loaded, ofDocument "other" source.document.toJson.pretty = .ok loaded ∧
      loaded.name = "unit" ∧ loaded.tokens = source.tokens ∧
      (loaded.report .strict).classifications = (source.report .strict).classifications ∧
      (source.report .strict).notices =
        (lex "f => \"g").notices ++ (loaded.report .strict).notices := by
  have hlength : "f => \"g".length < UInt64.size := by decide
  obtain ⟨loaded, hload, hname, htokens, hreport⟩ := reloaded "unit" "f => \"g" "other" hlength
  obtain ⟨hclassifications, -, -, hnotices⟩ := hreport .strict
  exact ⟨hlength, loaded, hload, hname, htokens, hclassifications, hnotices⟩

end CodeUnit

end WordRole
