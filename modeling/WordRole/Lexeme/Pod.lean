import WordRole.Text.Lines

/-!
# Embedded documentation

A block of documentation starts with `=` and a letter at the beginning of a line and runs through
the first of its lines that begins with `=cut`, which may be the line it starts with.
-/

namespace WordRole.Lexeme

open Text (Cut)

/-- the mark at the beginning of a block's last line -/
def podEnd : List Char := ['=', 'c', 'u', 't']

/-- whether a line that is at its beginning starts a block -/
def startsPod : List Char → Bool
  | '=' :: c :: _ => c.isAlpha
  | _ => false

def pod (s : List Char) : Cut := .through (podEnd.isPrefixOf ·) s

@[simp] theorem whole_pod (s : List Char) : (pod s).whole = s := Cut.whole_through _ s

theorem taken_pod_ne_nil (c : Char) (cs : List Char) : (pod (c :: cs)).taken ≠ [] :=
  Cut.taken_through_ne_nil _ c cs

end WordRole.Lexeme
