import WordRole.Classification
import WordRole.Mode
import WordRole.Notice

/-!
# Reports

What the analysis of a unit has found, and whether the unit fails for it.  `Findings` gathers
classifications and notices in the order in which they come; `Findings.report` decides the outcome.
-/

namespace WordRole

/-- How a classification is listed. -/
inductive Group where
  | accepted
  | acceptedByConvention
  | flagged
deriving DecidableEq, Repr, Inhabited

namespace Group

def all : List Group := [accepted, acceptedByConvention, flagged]

def word : Group → String
  | accepted => "accepted"
  | acceptedByConvention => "accepted-by-convention"
  | flagged => "flagged"

end Group

def AmbiguityLevel.group : AmbiguityLevel → Group
  | .unambiguous => .accepted
  | .conventionalButRisky => .acceptedByConvention
  | .priorArtLegacy | .ambiguousRequiresRewrite => .flagged

/-- How the analysis of a unit ends. -/
inductive Outcome where
  | clean
  | advisory
  | failed
  | aborted
deriving DecidableEq, Repr, Inhabited

def Outcome.word : Outcome → String
  | .clean => "clean"
  | .advisory => "advisory"
  | .failed => "failed"
  | .aborted => "aborted"

namespace Classification

def group (c : Classification) : Group := c.level.group

/-- whether a classification fails its unit in strict mode -/
def isFatal (c : Classification) : Bool :=
  c.level = .ambiguousRequiresRewrite || c.category.isError

/-- a classification with the rewrite of its category, if it has none of its own -/
def withRewrite (c : Classification) : Classification :=
  { c with rewrite := c.rewrite.or (c.category.rewrite? c.name) }

end Classification

/-- What is known about a unit after its analysis. -/
structure Report where
  unit : String
  mode : Mode
  outcome : Outcome
  classifications : List Classification
  notices : List Notice
  /-- the fault that stopped the analysis, if it did not reach the end -/
  abort : Option InvalidComparator
deriving DecidableEq, Repr, Inhabited

namespace Report

def inGroup (r : Report) (g : Group) : List Classification :=
  r.classifications.filter fun c => c.group = g

/-- the classifications that fail the unit in strict mode, in order -/
def fatal (r : Report) : List Classification := r.classifications.filter (·.isFatal)

/-- the classifications of each level that occurs, in the order of the levels -/
def byLevel (r : Report) : List (AmbiguityLevel × List Classification) :=
  (AmbiguityLevel.all.map fun l => (l, r.classifications.filter fun c => c.level = l)).filter
    fun bucket => !bucket.2.isEmpty

def isFailure (r : Report) : Bool := r.outcome = .failed || r.outcome = .aborted

end Report

structure Findings where
  classifications : List Classification
  notices : List Notice
deriving DecidableEq, Repr, Inhabited

namespace Findings

def empty : Findings := ⟨[], []⟩

/-- the findings with one more classification, which gets a rewrite if it needs one -/
def add (f : Findings) (c : Classification) : Findings :=
  { f with classifications := f.classifications ++ [c.withRewrite] }

def notice (f : Findings) (ns : List Notice) : Findings := { f with notices := f.notices ++ ns }

/-- A fault aborts; a fatal finding fails in strict mode; flagged ones are advice. -/
def outcome (f : Findings) (mode : Mode) (abort : Option InvalidComparator) : Outcome :=
  let fatal := f.classifications.any (·.isFatal)
  let flagged := f.classifications.any fun c => c.group = .flagged
  if abort.isSome then .aborted
  else if fatal && mode = .strict then .failed
  else if fatal || flagged then .advisory
  else .clean

def report (f : Findings) (unit : String) (mode : Mode) (abort : Option InvalidComparator) :
    Report :=
  ⟨unit, mode, f.outcome mode abort, f.classifications, f.notices, abort⟩

end Findings

end WordRole
