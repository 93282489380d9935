import WordRole.Lexeme.Delimited
import WordRole.Lexeme.Heredoc
import WordRole.Lexeme.Name
import WordRole.Lexeme.Number
import WordRole.Lexeme.Pod
import WordRole.Symbol

/-!
# Segments of a source

A source falls into segments that follow each other: tokens, and what stands between them.  What the
next segment is depends on the text that follows and on a little `Context`: where the segment
starts, the last token, and the heredocs that have been announced.

* `Context.whole_cut`: a segment and what follows it make up the text;
* `Context.length_rest_cut_lt`: a segment takes at least one character.
-/

namespace WordRole

open Text (Cut)
open Lexeme

/-! ## Segments -/

/-- What a segment is. -/
inductive Piece where
  | blank
  | comment
  | pod
  /-- the lines of heredocs announced on the line before -/
  | heredocLines (bodies : List Heredoc.Body)
  /-- a character that starts no token -/
  | stray (c : Char)
  | token (kind : TokenKind)
  /-- a string literal or a pattern -/
  | literal (closed : Bool)
  | heredoc (h : Heredoc)
  /-- the word after which there is no code -/
  | endMarker
deriving DecidableEq, Repr, Inhabited

/-- A stretch of a source. -/
structure Segment where
  text : List Char
  position : Position
  piece : Piece
deriving DecidableEq, Repr, Inhabited

namespace Segment

def kind? (s : Segment) : Option TokenKind :=
  match s.piece with
  | .token kind => some kind
  | .literal _ | .heredoc _ => some .stringLiteral
  | _ => none

def token? (s : Segment) : Option Token :=
  s.kind?.map fun kind => ⟨kind, String.ofList s.text, s.position⟩

end Segment

/-! ## Contexts -/

/-- What the next segment depends on besides the text. -/
structure Context where
  position : Position
  /-- the last token -/
  last : Option Token
  /-- the heredocs announced on this line -/
  announced : List Heredoc
  /-- the heredocs whose lines start here -/
  due : List Heredoc
deriving DecidableEq, Repr, Inhabited

namespace Context

def start : Context := ⟨.start, none, [], []⟩

/-- the context after a segment; a newline makes the announced heredocs due -/
def after (ctx : Context) (s : Segment) : Context where
  position := ctx.position.afterAll s.text
  last := s.token?.or ctx.last
  announced :=
    match s.piece with
    | .heredoc h => ctx.announced ++ [h]
    | .blank => if s.text = ['\n'] then [] else ctx.announced
    | _ => ctx.announced
  due :=
    match s.piece with
    | .heredocLines _ => []
    | .blank => if s.text = ['\n'] then ctx.announced else ctx.due
    | _ => ctx.due

/-- whether a method name is expected -/
def afterArrow (ctx : Context) : Bool := ctx.last.any (·.isMemberArrow)

/-- whether the last token ends a value, so that an operator may follow -/
def afterValue (ctx : Context) : Bool :=
  ctx.last.any fun t =>
    match t.kind with
    | .identifier => t.sigil?.isSome || !Vocabulary.isReserved t.text
    | .number | .stringLiteral => true
    | .delimiter => [")", "]", "\x7d"].contains t.text
    | .operator | .punctuation => false

/-- whether a slash starts a pattern here rather than a division -/
def expectsPattern (ctx : Context) : Bool :=
  ctx.last.all fun t =>
    match t.kind with
    | .operator | .punctuation => true
    | .delimiter => ["(", "[", "\x7b"].contains t.text
    | .identifier => Vocabulary.patternIntroducers.contains t.text
    | .number | .stringLiteral => false

/-! ## The next segment -/

/-- the delimiters that quote a string without a word before them -/
def quotes : List Char := ['"', '\'', '\x60']

/-- Takes a word: an end marker, a quote word with its literal, or a name. -/
def cutWord (ctx : Context) (s : List Char) : Piece × Cut :=
  let name := qualifiedName s
  let word := String.ofList name.taken
  if Vocabulary.endMarkers.contains word then (.endMarker, name)
  else if !ctx.afterArrow && Vocabulary.quoteWords.contains word then
    match quoted? word name.rest with
    | some literal => (.literal literal.closed, literal.cut.after name.taken)
    | none => (.token .identifier, name)
  else (.token .identifier, name)

/-- Takes a pattern that a slash has opened. -/
def cutPattern (s : List Char) : Piece × Cut :=
  let literal := (body '/' s).andThen modifiers
  (.literal literal.closed, literal.cut.cons '/')

/-- Takes a heredoc's marker, a symbol, or a character that starts neither. -/
def cutSymbol (ctx : Context) (c : Char) (cs : List Char) : Piece × Cut :=
  match Heredoc.marker? ctx.position (c :: cs) with
  | some (h, cut) => (.heredoc h, cut)
  | none =>
    match Symbol.ofPrefix? (c :: cs) with
    | some symbol => (.token (Symbol.kind (String.ofList symbol)), .first symbol.length (c :: cs))
    | none => (.stray c, ⟨[c], cs⟩)

def cut (ctx : Context) (c : Char) (cs : List Char) : Piece × Cut :=
  if ctx.due ≠ [] then
    let bodies := Heredoc.bodies ctx.due (c :: cs)
    (.heredocLines bodies.1, bodies.2)
  else if Text.isBlank c then (.blank, ⟨[c], cs⟩)
  else if ctx.position.column = 1 && startsPod (c :: cs) then (.pod, pod (c :: cs))
  else if c = '#' then (.comment, .span (· != '\n') (c :: cs))
  else if quotes.contains c then
    let literal := body c cs
    (.literal literal.closed, literal.cut.cons c)
  else if startsVariable ctx.afterValue (c :: cs) then
    (.token .identifier, sigiledName (c :: cs))
  else if isNameStart c then ctx.cutWord (c :: cs)
  else if c.isDigit then (.token .number, number (c :: cs))
  else if c = '/' && ctx.expectsPattern then cutPattern cs
  else ctx.cutSymbol c cs

/-! ### Nothing is lost -/

theorem whole_cutWord (ctx : Context) {c : Char} (cs : List Char) (h : isNameStart c = true) :
    (ctx.cutWord (c :: cs)).2.whole = c :: cs ∧ (ctx.cutWord (c :: cs)).2.taken ≠ [] := by
  have hw := whole_qualifiedName (c :: cs)
  have hn := taken_qualifiedName_ne_nil cs (isNameChar_of_isNameStart h)
  unfold cutWord
  dsimp only
  split
  · exact ⟨hw, hn⟩
  · split
    · split
      · rename_i literal hl
        refine ⟨?_, by simp [hn]⟩
        rw [Cut.whole_after, whole_quoted? hl]
        exact hw
      · exact ⟨hw, hn⟩
    · exact ⟨hw, hn⟩

theorem whole_cutPattern (s : List Char) :
    (cutPattern s).2.whole = '/' :: s ∧ (cutPattern s).2.taken ≠ [] := by
  simp [cutPattern, Cut.whole_andThen]

theorem whole_cutSymbol (ctx : Context) (c : Char) (cs : List Char) :
    (ctx.cutSymbol c cs).2.whole = c :: cs ∧ (ctx.cutSymbol c cs).2.taken ≠ [] := by
  unfold cutSymbol
  split
  · rename_i h
    exact Heredoc.whole_marker? h
  · split
    · rename_i symbol h
      refine ⟨Cut.whole_first _ _, ?_⟩
      obtain ⟨d, ds, rfl⟩ := List.exists_cons_of_ne_nil
        (Symbol.ne_nil_of_mem_table (Symbol.mem_table_of_ofPrefix? h))
      simp [Cut.first]
    · simp [Cut.whole]

theorem whole_cut (ctx : Context) (c : Char) (cs : List Char) :
    (ctx.cut c cs).2.whole = c :: cs ∧ (ctx.cut c cs).2.taken ≠ [] := by
  unfold cut
  split
  · rename_i h
    exact ⟨Heredoc.whole_bodies _ _, Heredoc.taken_bodies_ne_nil h c cs⟩
  split
  · simp [Cut.whole]
  split
  · exact ⟨whole_pod _, taken_pod_ne_nil c cs⟩
  split
  · rename_i h
    exact ⟨Cut.whole_span _ _, Cut.taken_span_ne_nil cs (by simp [h])⟩
  split
  · simp
  split
  · exact ⟨whole_sigiledName _, taken_sigiledName_ne_nil c cs⟩
  split
  · rename_i h
    exact ctx.whole_cutWord cs h
  split
  · rename_i h
    exact ⟨whole_number _, taken_number_ne_nil cs h⟩
  split
  · rename_i h
    simp only [Bool.and_eq_true, decide_eq_true_eq] at h
    rw [h.1]
    exact whole_cutPattern cs
  · exact ctx.whole_cutSymbol c cs

theorem length_rest_cut_lt (ctx : Context) (c : Char) (cs : List Char) :
    (ctx.cut c cs).2.rest.length < (c :: cs).length := by
  obtain ⟨hw, hn⟩ := ctx.whole_cut c cs
  exact hw ▸ Cut.length_rest_lt hn

/-! ## All segments -/

/-- the segment that starts here, from what it is and the cut after it -/
def segment (ctx : Context) (p : Piece × Cut) : Segment := ⟨p.2.taken, ctx.position, p.1⟩

/-- The segments of a text, with the context after the last of them.  What follows an end marker is
no code. -/
def segments (ctx : Context) : List Char → List Segment × Context
  | [] => ([], ctx)
  | c :: cs =>
    let next := ctx.cut c cs
    let s := ctx.segment next
    if next.1 = .endMarker then ([s], ctx.after s)
    else
      let more := (ctx.after s).segments next.2.rest
      (s :: more.1, more.2)
termination_by s => s.length
decreasing_by exact ctx.length_rest_cut_lt c cs

end Context

end WordRole
