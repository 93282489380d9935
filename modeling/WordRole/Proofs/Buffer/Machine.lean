import WordRole.Proofs.Buffer.Lines
import WordRole.Proofs.Buffer.Scanners
import WordRole.Proofs.Lexing.Words

/-!
# The lexer over a buffer

The lexer as a loop that moves a cursor over a buffer and adds to a list of tokens.  A step fails
where it slices the buffer out of bounds, reads an index that is not there, takes a difference
below zero, or looks for the marker of a heredoc and does not find it; the run fails where a step
does, and where one does not move on.

* `State.step_of_before`: a step other than over a newline takes the next segment;
* `State.Reaches`: the states that the run over a buffer comes to.
-/

namespace WordRole.Buffer

open Text (Cut)
open Lexeme

/-- A heredoc that waits for its lines, with the index of its marker among the tokens. -/
structure Waiting where
  heredoc : Heredoc
  index : Nat
deriving DecidableEq, Repr

/-- whether a token is the marker of a heredoc, and nothing has been added to it yet -/
def Waiting.IsMarkedBy (w : Waiting) (t : Token) : Prop :=
  t.kind = .stringLiteral ∧ t.position = w.heredoc.position ∧
    Heredoc.marker? t.position t.text.toList = some (w.heredoc, ⟨t.text.toList, []⟩)

instance (w : Waiting) (t : Token) : Decidable (w.IsMarkedBy t) :=
  inferInstanceAs (Decidable (_ ∧ _ ∧ _))

/-- Adds the lines of a heredoc to its marker; there is none unless the token at the saved index is
that marker. -/
def appendBody? (tokens : List Token) (w : Waiting) (body : List Char) : Option (List Token) :=
  tokens[w.index]?.bind fun t =>
    if w.IsMarkedBy t then
      some (tokens.set w.index { t with text := String.ofList (t.text.toList ++ body) })
    else none

/-- What the lexer keeps while it moves over a buffer. -/
structure State where
  cursor : Cursor
  tokens : List Token
  notices : List Notice
  waiting : List Waiting
deriving DecidableEq, Repr

namespace State

def start : State := ⟨.start, [], [], []⟩

/-- what the next token depends on besides the buffer -/
def context (m : State) : Context :=
  ⟨m.cursor.position, m.tokens.getLast?, m.waiting.map (·.heredoc), []⟩

/-- the result at the end, where heredocs that still wait will not have their lines -/
def lexed (m : State) : Lexed :=
  ⟨m.tokens, m.notices ++ m.waiting.map (·.heredoc.unterminated)⟩

section Steps

variable (text : List Char)

/-- Adds the token that starts at a cursor and ends at that of the state. -/
def push (kind : TokenKind) (first : Cursor) (m : State) : Option State :=
  (slice? text first.index m.cursor.index).map fun t =>
    { m with tokens := m.tokens ++ [⟨kind, String.ofList t, first.position⟩] }

/-- Adds a string or a pattern, with a notice if it has no end. -/
def pushLiteral (closed : Bool) (first : Cursor) (m : State) : Option State :=
  push text .stringLiteral first
    { m with notices := m.notices ++ if closed then [] else [.unterminatedLiteral first.position] }

/-- Adds the marker of a heredoc, which waits for its lines from now on. -/
def pushMarker (h : Heredoc) (first : Cursor) (m : State) : Option State :=
  (push text .stringLiteral first m).bind fun m =>
    (minus? m.tokens.length 1).map fun index =>
      { m with waiting := m.waiting ++ [⟨h, index⟩] }

def readBodies : List Waiting → State → Option State
  | [], m => some m
  | w :: ws, m =>
    (m.cursor.readBody text w.heredoc []).bind fun (closed, body, c) =>
      (appendBody? m.tokens w body).bind fun tokens =>
        readBodies ws
          { m with
            cursor := c
            tokens := tokens
            notices := m.notices ++ if closed then [] else [w.heredoc.unterminated] }

/-- Moves over a word, and tells whether there is code after it. -/
def stepWord (m : State) : Option (Bool × State) :=
  let c := m.cursor.scanQualifiedName text
  (slice? text m.cursor.index c.index).bind fun t =>
    let word := String.ofList t
    if Vocabulary.endMarkers.contains word then some (false, { m with cursor := c })
    else if !m.context.afterArrow && Vocabulary.quoteWords.contains word then
      (c.scanQuoted? text word).bind fun
        | some (closed, d) =>
          (pushLiteral text closed m.cursor { m with cursor := d }).map (true, ·)
        | none => (push text .identifier m.cursor { m with cursor := c }).map (true, ·)
    else (push text .identifier m.cursor { m with cursor := c }).map (true, ·)

/-- Moves over a heredoc's marker, a symbol, or a character that starts neither. -/
def stepSymbol (ch : Char) (m : State) : Option State :=
  (m.cursor.markerAt? text).bind fun
    | some (h, n) => pushMarker text h m.cursor { m with cursor := m.cursor.bumps text n }
    | none =>
      (symbolAt? text m.cursor.index).map fun
        | some symbol =>
          { m with
            cursor := m.cursor.bumps text symbol.length
            tokens := m.tokens ++ [⟨Symbol.kind (String.ofList symbol), String.ofList symbol,
              m.cursor.position⟩] }
        | none =>
          { m with
            cursor := m.cursor.bump text
            notices := m.notices ++ [.unexpectedCharacter ch m.cursor.position] }

/-- A step of the lexer, and whether there is code after it. -/
def step (m : State) : Option (Bool × State) :=
  let c := m.cursor
  match c.peek text 0 with
  | none => some (false, m)
  | some ch =>
    if ch = '\n' then
      (readBodies text m.waiting { m with cursor := c.bump text, waiting := [] }).map (true, ·)
    else if Text.isBlank ch then some (true, { m with cursor := c.bump text })
    else if c.position.column = 1 && (ch = '=' && (c.peek text 1).any Char.isAlpha) then
      (c.skipPod text).map fun d => (true, { m with cursor := d })
    else if ch = '#' then some (true, { m with cursor := c.skip text (· != '\n') })
    else if Context.quotes.contains ch then
      ((c.bump text).scanBody text ch 0).bind fun (closed, d) =>
        (pushLiteral text closed c { m with cursor := d }).map (true, ·)
    else if c.startsVariable text m.context.afterValue then
      (push text .identifier c { m with cursor := c.scanVariable text }).map (true, ·)
    else if isNameStart ch then stepWord text m
    else if ch.isDigit then
      (push text .number c { m with cursor := c.scanNumber text }).map (true, ·)
    else if ch = '/' && m.context.expectsPattern then
      ((c.bump text).scanBody text '/' 0).bind fun (closed, d) =>
        (pushLiteral text closed c { m with cursor := d.skipModifiers text }).map (true, ·)
    else (stepSymbol text ch m).map (true, ·)

/-- The run from a state on; it fails where the cursor does not move on inside the buffer. -/
def run (m : State) : Option Lexed :=
  match step text m with
  | none => none
  | some (false, m') => some m'.lexed
  | some (true, m') =>
    if m.cursor.index < m'.cursor.index ∧ m'.cursor.index ≤ text.length then run m' else none
termination_by text.length - m.cursor.index

/-- The states that the run over a buffer comes to. -/
inductive Reaches : State → Prop
  | start : Reaches start
  | step {m m' : State} (h : Reaches m) (hstep : step text m = some (true, m')) : Reaches m'

end Steps

/-! ### Steps and segments -/

/-- the state after a segment that it moves over -/
def take (m : State) (s : Segment) : State where
  cursor := m.cursor.advance s.text
  tokens := m.tokens ++ s.token?.toList
  notices := m.notices ++ s.notices
  waiting := m.waiting ++ (s.heredoc?.map fun h => ⟨h, m.tokens.length⟩).toList

/-- the outcome of a step that takes the next segment, which is followed by code unless it is an end
marker -/
def taking (m : State) (next : Piece × Cut) : Option (Bool × State) :=
  some (decide (next.1 ≠ .endMarker), m.take (m.context.segment next))

/-- Between tokens only the cursor moves. -/
theorem take_gap {piece : Piece}
    (h : piece = .blank ∨ piece = .pod ∨ piece = .comment ∨ piece = .endMarker) (m : State)
    (cut : Cut) :
    m.take (m.context.segment (piece, cut)) = { m with cursor := m.cursor.advance cut.taken } := by
  rcases h with rfl | rfl | rfl | rfl <;>
  simp [take, Context.segment, Segment.token?, Segment.kind?, Segment.notices, Segment.heredoc?]

theorem take_token (m : State) (kind : TokenKind) (cut : Cut) :
    m.take (m.context.segment (.token kind, cut)) =
      { m with
        cursor := m.cursor.advance cut.taken
        tokens := m.tokens ++ [⟨kind, String.ofList cut.taken, m.cursor.position⟩] } := by
  simp [take, Context.segment, Segment.token?, Segment.kind?, Segment.notices, Segment.heredoc?,
    context]

theorem take_stray (m : State) (ch : Char) (cut : Cut) :
    m.take (m.context.segment (.stray ch, cut)) =
      { m with
        cursor := m.cursor.advance cut.taken
        notices := m.notices ++ [.unexpectedCharacter ch m.cursor.position] } := by
  simp [take, Context.segment, Segment.token?, Segment.kind?, Segment.notices, Segment.heredoc?,
    context]

section Take

variable {text : List Char} {m : State} {s : List Char} (h : m.cursor.Before text s)

include h

theorem push_eq_take {cut : Cut} (hwhole : cut.whole = s) (kind : TokenKind) :
    push text kind m.cursor { m with cursor := m.cursor.advance cut.taken } =
      some (m.take (m.context.segment (.token kind, cut))) := by
  subst hwhole
  rw [push, h.slice?_advance, take_token]
  rfl

theorem pushLiteral_eq_take {cut : Cut} (hwhole : cut.whole = s) (closed : Bool) :
    pushLiteral text closed m.cursor { m with cursor := m.cursor.advance cut.taken } =
      some (m.take (m.context.segment (.literal closed, cut))) := by
  subst hwhole
  rw [pushLiteral, push, h.slice?_advance]
  cases closed <;>
  simp [take, Context.segment, Segment.token?, Segment.kind?, Segment.notices, Segment.heredoc?,
    context]

theorem pushMarker_eq_take {cut : Cut} (hwhole : cut.whole = s) (heredoc : Heredoc) :
    pushMarker text heredoc m.cursor { m with cursor := m.cursor.advance cut.taken } =
      some (m.take (m.context.segment (.heredoc heredoc, cut))) := by
  subst hwhole
  rw [pushMarker, push, h.slice?_advance]
  -- the token has just been added
  simp [take, Context.segment, Segment.token?, Segment.kind?, Segment.notices, Segment.heredoc?,
    context, minus?]

end Take

section Step

variable {text : List Char} {m : State} {ch : Char} {s : List Char}
  (h : m.cursor.Before text (ch :: s))

include h

theorem stepWord_of_before : stepWord text m = m.taking (m.context.cutWord (ch :: s)) := by
  have hwhole := whole_qualifiedName (ch :: s)
  have hrest := h.cut hwhole
  have hslice := hwhole ▸ h
  unfold stepWord Context.cutWord
  rw [Cursor.scanQualifiedName_of_before h]
  dsimp only
  rw [Cursor.Before.slice?_advance hslice, Option.bind_some]
  generalize hq : qualifiedName (ch :: s) = name at *
  by_cases hend : Vocabulary.endMarkers.contains (String.ofList name.taken) = true
  · rw [if_pos hend, if_pos hend, taking, take_gap (.inr (.inr (.inr rfl)))]
    rfl
  rw [if_neg hend, if_neg hend]
  have hplain : ∀ kind, (push text kind m.cursor
      { m with cursor := m.cursor.advance name.taken }).map (true, ·) =
        m.taking (.token kind, name) := fun kind => by
    rw [push_eq_take h hwhole]
    rfl
  split
  · rw [Cursor.scanQuoted?_of_before hrest, Option.bind_some]
    cases hquoted : quoted? (String.ofList name.taken) name.rest with
    | none => exact hplain _
    | some literal =>
      have hcut : (literal.cut.after name.taken).whole = ch :: s := by
        rw [Cut.whole_after, whole_quoted? hquoted]
        exact hwhole
      have hliteral := pushLiteral_eq_take h hcut literal.closed
      dsimp only [Option.map_some]
      rw [Cursor.advance_advance, ← Cut.taken_after, hliteral]
      rfl
  · exact hplain _

theorem stepSymbol_of_before :
    (stepSymbol text ch m).map (true, ·) = m.taking (m.context.cutSymbol ch s) := by
  unfold stepSymbol Context.cutSymbol
  rw [Cursor.markerAt?_of_before h, Option.bind_some]
  rw [show m.context.position = m.cursor.position from rfl]
  cases hmarker : Heredoc.marker? m.cursor.position (ch :: s) with
  | some marker =>
    have hwhole := (Heredoc.whole_marker? hmarker).1
    have hbumps := Cursor.Before.bumps (hwhole ▸ h)
    dsimp only [Option.map_some]
    rw [hbumps, pushMarker_eq_take h hwhole]
    rfl
  | none =>
    have hin : m.cursor.index < text.length := h.lt_length_iff.mpr (Nat.zero_lt_succ s.length)
    dsimp only [Option.map_none]
    rw [symbolAt?_of_lt hin, h.drop, Option.map_some]
    cases hsymbol : Symbol.ofPrefix? (ch :: s) with
    | some symbol =>
      obtain ⟨rest, hrest⟩ :=
        List.isPrefixOf_iff_prefix.mp (Symbol.isPrefixOf_of_ofPrefix? hsymbol)
      have hbumps := Cursor.Before.bumps (hrest ▸ h)
      have hfirst : Cut.first symbol.length (ch :: s) = ⟨symbol, rest⟩ := by
        rw [← hrest, Cut.first, List.take_left' rfl, List.drop_left' rfl]
      dsimp only
      rw [hbumps, hfirst, taking, take_token]
      rfl
    | none =>
      dsimp only
      rw [h.bump, taking, take_stray]
      rfl

theorem startsPod_of_before :
    (ch = '=' && (m.cursor.peek text 1).any Char.isAlpha) = startsPod (ch :: s) := by
  rw [h.peek]
  by_cases hmark : ch = '='
  · subst hmark
    cases s <;> rfl
  · simp [Context.startsPod_of_ne hmark, hmark]

/-- **A step.**  Over anything but a newline, a step succeeds and takes the next segment. -/
theorem step_of_before (hch : ch ≠ '\n') : step text m = m.taking (m.context.cut ch s) := by
  have hdue : ¬m.context.due ≠ [] := not_not_intro rfl
  unfold step Context.cut
  dsimp only
  rw [h.peek 0, if_neg hdue]
  dsimp only [List.getElem?_cons_zero]
  rw [if_neg hch]
  by_cases hblank : Text.isBlank ch = true
  · rw [if_pos hblank, if_pos hblank, h.bump, taking, take_gap (.inl rfl)]
    rfl
  rw [if_neg hblank, if_neg hblank, startsPod_of_before h,
    show m.cursor.position = m.context.position from rfl]
  by_cases hstarts : (m.context.position.column = 1 && startsPod (ch :: s)) = true
  · rw [if_pos hstarts, if_pos hstarts, Cursor.skipPod_of_before h, taking,
      take_gap (.inr (.inl rfl))]
    rfl
  rw [if_neg hstarts, if_neg hstarts]
  by_cases hcomment : ch = '#'
  · rw [if_pos hcomment, if_pos hcomment, Cursor.skip_of_before h, taking,
      take_gap (.inr (.inr (.inl rfl)))]
    rfl
  rw [if_neg hcomment, if_neg hcomment]
  by_cases hquote : Context.quotes.contains ch = true
  · have hcut : ((body ch s).cut.cons ch).whole = ch :: s := by rw [Cut.whole_cons, whole_body]
    rw [if_pos hquote, if_pos hquote, h.bump, Cursor.scanBody_of_before h.tail, Option.bind_some]
    have hliteral := pushLiteral_eq_take h hcut (body ch s).closed
    dsimp only
    rw [Cursor.advance_advance]
    exact congrArg (Option.map (true, ·)) hliteral
  rw [if_neg hquote, if_neg hquote, Cursor.startsVariable_of_before h]
  by_cases hvariable : startsVariable m.context.afterValue (ch :: s) = true
  · rw [if_pos hvariable, if_pos hvariable, Cursor.scanVariable_of_before h,
      push_eq_take h (whole_sigiledName _)]
    rfl
  rw [if_neg hvariable, if_neg hvariable]
  by_cases hname : isNameStart ch = true
  · rw [if_pos hname, if_pos hname, stepWord_of_before h]
  rw [if_neg hname, if_neg hname]
  by_cases hdigit : ch.isDigit = true
  · rw [if_pos hdigit, if_pos hdigit, Cursor.scanNumber_of_before h,
      push_eq_take h (whole_number _)]
    rfl
  rw [if_neg hdigit, if_neg hdigit]
  by_cases hpattern : (ch = '/' && m.context.expectsPattern) = true
  · rw [if_pos hpattern, if_pos hpattern, h.bump, Cursor.scanBody_of_before h.tail,
      Option.bind_some]
    obtain rfl : ch = '/' := of_decide_eq_true (Bool.and_eq_true_iff.mp hpattern).1
    have hmodifiers := h.tail.cut (whole_body '/' s)
    have hliteral := pushLiteral_eq_take h (Context.whole_cutPattern s).1 (body '/' s).closed
    dsimp only
    rw [Cursor.skipModifiers, ← body, Cursor.skip_of_before hmodifiers, Cursor.advance_advance,
      Cursor.advance_advance]
    exact congrArg (Option.map (true, ·)) hliteral
  · rw [if_neg hpattern, if_neg hpattern, stepSymbol_of_before h]

end Step

end State

end WordRole.Buffer
