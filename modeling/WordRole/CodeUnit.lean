import WordRole.Analysis.Analyzer
import WordRole.Lexing
import WordRole.Report.Rendered
import WordRole.Slot.Inference

/-!
# Units of code

A unit is a named list of slotted tokens, with the notices of whoever made them.  Units are analysed
one by one, each with a declaration table of its own, and reported on in order.
-/

namespace WordRole

/-- A unit that is ready for analysis. -/
structure CodeUnit where
  name : String
  tokens : List SlottedToken
  notices : List Notice
deriving DecidableEq, Repr, Inhabited

namespace CodeUnit

def ofSource (name content : String) : CodeUnit :=
  let lexed := lex content
  ⟨name, SlottedToken.infer lexed.tokens, lexed.notices⟩

def analyzed (u : CodeUnit) : Analyzer := (Analyzer.start u.tokens u.notices).drain

def report (u : CodeUnit) (mode : Mode) : Report := u.analyzed.finish u.name mode

end CodeUnit

/-- The reports on several units, in order. -/
structure Summary where
  units : List Report
deriving DecidableEq, Repr, Inhabited

namespace Summary

/-- the reports on units that know nothing of each other -/
def ofUnits (us : List CodeUnit) (mode : Mode) : Summary := ⟨us.map (·.report mode)⟩

def hasFailures (s : Summary) : Bool := s.units.any (·.isFailure)

def render (s : Summary) (verbose : Bool) : String :=
  "\n".intercalate (s.units.map (·.render verbose))

end Summary

end WordRole
