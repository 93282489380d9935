/-!
# Modes

Whether a finding that asks for a rewrite fails its unit or is only reported.
-/

namespace WordRole

/-- How findings that ask for a rewrite are taken. -/
inductive Mode where
  | strict
  | permissive
deriving DecidableEq, Repr, Inhabited

namespace Mode

def all : List Mode := [strict, permissive]

def word : Mode → String
  | strict => "strict"
  | permissive => "permissive"

def ofWord? (w : String) : Option Mode := all.find? fun m => m.word == w

theorem ofWord?_word (m : Mode) : ofWord? m.word = some m := by cases m <;> decide

end Mode

end WordRole
