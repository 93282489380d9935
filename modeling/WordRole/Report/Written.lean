import WordRole.CodeUnit
import WordRole.Json.Basic

/-!
# Reports as JSON

The members of a report and its parts, in the order in which they are written.
-/

namespace WordRole

def Position.toJson (p : Position) : Json :=
  .record [("line", .nat p.line), ("column", .nat p.column)]

def Classification.toJson (c : Classification) : Json :=
  .record
    [("code", .text c.code), ("name", .text c.name), ("slot", .text c.slot.word),
     ("position", c.position.toJson), ("category", .text c.category.word),
     ("ambiguityLevel", .text c.level.word), ("rationale", .text c.rationale),
     ("suggestedRewrite", .textOrNull c.rewrite), ("nonInterpolating", .bool c.nonInterpolating)]

def Notice.toJson (n : Notice) : Json :=
  .record
    [("code", .text n.code), ("severity", .text n.severity.word), ("message", .text n.message),
     ("position", n.position.toJson)]

def InvalidComparator.toJson (e : InvalidComparator) : Json :=
  .record
    [("code", .text InvalidComparator.code), ("message", .text e.message),
     ("position", e.position.toJson)]

def Report.toJson (r : Report) : Json :=
  .record
    [("unit", .text r.unit), ("mode", .text r.mode.word), ("outcome", .text r.outcome.word),
     ("classifications", .array (r.classifications.map (·.toJson))),
     ("notices", .array (r.notices.map (·.toJson))),
     ("abort", (r.abort.map (·.toJson)).getD .null)]

def Summary.toJson (s : Summary) : Json := .record [("units", .array (s.units.map (·.toJson)))]

end WordRole
