import WordRole.Text.Alphanumeric
import WordRole.Text.Blank
import WordRole.Text.Cut
import WordRole.Vocabulary

/-!
# Delimited literals

A body runs to its closing delimiter.  A backslash takes the next character with it, and between
brackets of two kinds the opening one nests.  The words in `Vocabulary.quoteWords` open a literal
with a delimiter of their own; some of those literals have two bodies.
-/

namespace WordRole.Lexeme

open Text (Cut)

/-- Text taken up to a closing delimiter, or to the end if there is none. -/
structure Delimited where
  cut : Cut
  closed : Bool
deriving DecidableEq, Repr, Inhabited

namespace Delimited

def after (cs : List Char) (d : Delimited) : Delimited := { d with cut := d.cut.after cs }

def andThen (d : Delimited) (f : List Char → Cut) : Delimited := { d with cut := d.cut.andThen f }

end Delimited

def closing : Char → Char
  | '(' => ')'
  | '[' => ']'
  | '{' => '}'
  | '<' => '>'
  | c => c

/-- Takes a body and its closing delimiter, inside `depth` brackets more. -/
def bodyWithin (opening : Char) (depth : Nat) : List Char → Delimited
  | [] => ⟨.nothing [], false⟩
  | '\\' :: c :: cs => (bodyWithin opening depth cs).after ['\\', c]
  | c :: cs =>
    if closing opening ≠ opening ∧ c = opening then
      (bodyWithin opening (depth + 1) cs).after [c]
    else if c = closing opening then
      match depth with
      | 0 => ⟨⟨[c], cs⟩, true⟩
      | depth + 1 => (bodyWithin opening depth cs).after [c]
    else (bodyWithin opening depth cs).after [c]

/-- Takes the body that a delimiter has opened. -/
def body (opening : Char) (s : List Char) : Delimited := bodyWithin opening 0 s

/-- Takes the second body of a literal.  Where the first one had brackets, the second has delimiters
of its own. -/
def secondBody (opening : Char) (s : List Char) : Delimited :=
  if closing opening = opening then body opening s
  else
    let gap := Cut.span Text.isBlank s
    match gap.rest with
    | [] => ⟨gap, false⟩
    | c :: cs => (body c cs).after (gap.taken ++ [c])

/-- Takes the letters that modify a literal. -/
def modifiers (s : List Char) : Cut := .span Char.isAlpha s

/-! ## Quote words -/

/-- a blank that may stand between a quote word and its delimiter -/
def isGap (c : Char) : Bool := c = ' ' || c = '\t'

/-- the delimiters that may follow a quote word at a distance -/
def distantDelimiters : List Char := ['(', '[', '{', '<', '/', '|', '!']

/-- the characters that end an expression, so that the word before them is no quote word -/
def expressionEnds : List Char := [',', ';', ')', ']', '}']

/-- Whether a character opens the literal of a quote word: no letter, digit or blank, nothing that
ends an expression, and neither an assignment nor an arrow. -/
def opensLiteral (afterGap : Bool) (c : Char) (cs : List Char) : Bool :=
  (!afterGap || distantDelimiters.contains c) &&
    !(Text.isAlphanumeric c || Text.isBlank c || expressionEnds.contains c) &&
    !(c = '=' || (c = '-' && cs.head? = some '>'))

/-- Takes what follows a quote word, if it opens a literal. -/
def quoted? (word : String) (s : List Char) : Option Delimited :=
  let gap := Cut.span isGap s
  match gap.rest with
  | [] => none
  | c :: cs =>
    if opensLiteral (!gap.taken.isEmpty) c cs then
      let first := body c cs
      let both :=
        if first.closed && Vocabulary.twoBodyQuoteWords.contains word then
          (secondBody c first.cut.rest).after first.cut.taken
        else first
      some ((both.after (gap.taken ++ [c])).andThen modifiers)
    else none

/-! ### Nothing is lost -/

@[simp] theorem cut_after (cs : List Char) (d : Delimited) :
    (d.after cs).cut = d.cut.after cs := rfl

@[simp] theorem closed_after (cs : List Char) (d : Delimited) :
    (d.after cs).closed = d.closed := rfl

@[simp] theorem cut_andThen (d : Delimited) (f : List Char → Cut) :
    (d.andThen f).cut = d.cut.andThen f := rfl

@[simp] theorem whole_modifiers (s : List Char) : (modifiers s).whole = s := Cut.whole_span _ s

@[simp] theorem whole_bodyWithin (opening : Char) (depth : Nat) (s : List Char) :
    (bodyWithin opening depth s).cut.whole = s := by
  fun_induction bodyWithin opening depth s <;> simp_all

@[simp] theorem whole_body (opening : Char) (s : List Char) : (body opening s).cut.whole = s :=
  whole_bodyWithin opening 0 s

@[simp] theorem whole_secondBody (opening : Char) (s : List Char) :
    (secondBody opening s).cut.whole = s := by
  unfold secondBody
  split
  · simp
  · have h := Cut.whole_span Text.isBlank s
    dsimp only
    split
    · exact h
    · rename_i c cs hr
      rw [Cut.whole, hr] at h
      simpa using h

theorem whole_quoted? {word : String} {s : List Char} {d : Delimited}
    (h : quoted? word s = some d) : d.cut.whole = s := by
  have hw := Cut.whole_span isGap s
  unfold quoted? at h
  dsimp only at h
  split at h
  · simp at h
  · rename_i c cs hr
    rw [Cut.whole, hr] at hw
    split at h
    · obtain rfl := Option.some.inj h
      have hb := whole_body c cs
      rw [cut_andThen, Cut.whole_andThen _ whole_modifiers, cut_after, Cut.whole_after]
      split
      · rw [cut_after, Cut.whole_after, whole_secondBody, ← Cut.whole, hb]
        simpa using hw
      · rw [hb]
        simpa using hw
    · simp at h

end WordRole.Lexeme
