import WordRole.Report.Basic
import WordRole.Text.Blank

/-!
# Reports as text

One entry for each classification, notice and fault, and a line that counts the classifications.
Classifications that are accepted are left out unless all are asked for.
-/

namespace WordRole

/-- `unit:line:column` -/
def Position.inUnit (p : Position) (unit : String) : String := s!"{unit}:{p.text}"

/-- the word that an entry starts with: a fatal finding is an error in strict mode only -/
def Classification.label (c : Classification) (mode : Mode) : String :=
  if c.isFatal then
    match mode with
    | .strict => "error"
    | .permissive => "warning"
  else match c.level with
    | .unambiguous => "info"
    | .conventionalButRisky => "note"
    | .priorArtLegacy | .ambiguousRequiresRewrite => "warning"

/-- the entry of a classification, with its rewrite on a line of its own -/
def Classification.entry (c : Classification) (unit : String) (mode : Mode) : String :=
  let header := s!"{c.label mode}[{c.code}] {c.position.inUnit unit} {c.category.word}: " ++
    c.rationale ++ "\n"
  let help := match c.rewrite with
    | some rewrite => s!"  help: {rewrite}\n"
    | none => ""
  Text.trimEnd (header ++ help)

def Notice.entry (n : Notice) (unit : String) : String :=
  s!"{n.severity.word}[{n.code}] {n.position.inUnit unit} {n.message}"

def InvalidComparator.entry (e : InvalidComparator) (unit : String) : String :=
  s!"error[{InvalidComparator.code}] {e.position.inUnit unit} {e.message}\n" ++
    "  note: analysis of this unit stopped here"

namespace Report

/-- the line that counts the classifications -/
def tally (r : Report) : String :=
  s!"{r.unit}: {(r.inGroup .accepted).length} accepted, " ++
    s!"{(r.inGroup .acceptedByConvention).length} by convention, " ++
    s!"{(r.inGroup .flagged).length} flagged ({r.mode.word}, {r.outcome.word})"

def entries (r : Report) (verbose : Bool) : List String :=
  (r.classifications.filter fun c => verbose || c.group != .accepted).map
      (·.entry r.unit r.mode) ++
    r.notices.map (·.entry r.unit) ++ (r.abort.map (·.entry r.unit)).toList ++ [r.tally]

def render (r : Report) (verbose : Bool) : String := "\n".intercalate (r.entries verbose)

end Report

end WordRole
