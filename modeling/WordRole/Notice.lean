import WordRole.Declaration.Table

/-!
# Notices

Findings that judge no word: a literal that never ends, a name declared twice, a constant that a
string will not show.
-/

namespace WordRole

/-- How grave a notice is. -/
inductive Severity where
  | info
  | warning
  | error
deriving DecidableEq, Repr, Inhabited

namespace Severity

def all : List Severity := [info, warning, error]

def word : Severity → String
  | info => "info"
  | warning => "warning"
  | error => "error"

def ofWord? (w : String) : Option Severity := all.find? fun s => s.word == w

theorem ofWord?_word (s : Severity) : ofWord? s.word = some s := by cases s <;> decide

end Severity

/-- A finding that judges no word. -/
structure Notice where
  code : String
  severity : Severity
  message : String
  position : Position
deriving DecidableEq, Repr, Inhabited

namespace Notice

/-- a name declared again as the same kind -/
def redeclared (r : Redeclaration) : Notice := ⟨"B0601", .info, r.message, r.position⟩

/-- a constant's name in a string that replaces variables only -/
def constantInString (name : String) (position : Position) : Notice :=
  ⟨"B0602", .warning, s!"constant '{name}' is not interpolated inside this string; " ++
    s!"concatenate it or write @\x7b[ {name} ]\x7d", position⟩

def unterminatedLiteral (position : Position) : Notice :=
  ⟨"B0603", .warning, "unterminated string literal", position⟩

def unexpectedCharacter (c : Char) (position : Position) : Notice :=
  ⟨"B0604", .warning, s!"unexpected character '{c}'", position⟩

def unterminatedHeredoc (terminator : String) (position : Position) : Notice :=
  ⟨"B0605", .warning, s!"heredoc terminator '{terminator}' never found", position⟩

end Notice

end WordRole
