import WordRole.Json.Lexeme

/-!
# JSON values as text

A value is written over several lines, with two blanks for each level that an item is nested.
`Json.glyphs` lays out its lexemes; `Json.pretty` is the text.
-/

namespace WordRole.Json

/-- A piece of written text: a lexeme, or space for the reader. -/
inductive Glyph where
  | lexeme (l : Lexeme)
  | space
  /-- a new line at a depth -/
  | line (depth : Nat)
deriving DecidableEq, Repr, Inhabited

def Glyph.text : Glyph → List Char
  | lexeme l => l.text
  | space => [' ']
  | line depth => '\n' :: List.replicate (2 * depth) ' '

mutual

/-- the pieces of a value that is nested `depth` levels -/
def glyphs (depth : Nat) : Json → List Glyph
  | .null => [.lexeme .null]
  | .bool b => [.lexeme (.bool b)]
  | .number literal => [.lexeme (.number literal)]
  | .string text => [.lexeme (.string text)]
  | .array [] => [.lexeme .beginArray, .lexeme .endArray]
  | .array (v :: vs) =>
    [.lexeme .beginArray, .line (depth + 1)] ++ (glyphs (depth + 1) v ++
      (itemGlyphs (depth + 1) vs ++ [.line depth, .lexeme .endArray]))
  | .object [] => [.lexeme .beginObject, .lexeme .endObject]
  | .object ((name, v) :: ms) =>
    [.lexeme .beginObject, .line (depth + 1), .lexeme (.string name), .lexeme .nameSeparator,
      .space] ++ (glyphs (depth + 1) v ++
        (memberGlyphs (depth + 1) ms ++ [.line depth, .lexeme .endObject]))

/-- the pieces of the items after the first -/
def itemGlyphs (depth : Nat) : List Json → List Glyph
  | [] => []
  | v :: vs => [.lexeme .valueSeparator, .line depth] ++ (glyphs depth v ++ itemGlyphs depth vs)

/-- the pieces of the members after the first -/
def memberGlyphs (depth : Nat) : List (Option String × Json) → List Glyph
  | [] => []
  | (name, v) :: ms =>
    [.lexeme .valueSeparator, .line depth, .lexeme (.string name), .lexeme .nameSeparator,
      .space] ++ (glyphs depth v ++ memberGlyphs depth ms)

end

def pretty (v : Json) : String := String.ofList ((v.glyphs 0).flatMap Glyph.text)

end WordRole.Json
