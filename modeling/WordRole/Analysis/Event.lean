import WordRole.Classification

/-!
# Events

What an analysis does, step by step, as lines for whoever follows it.
-/

namespace WordRole

inductive Event where
  | recorded (d : Declaration)
  | redeclared (r : Redeclaration)
  /-- a slot on a token that holds no bareword -/
  | idle (slot : Slot) (token : Token)
  | classified (c : Classification)
  | aborted (e : InvalidComparator)
deriving DecidableEq, Repr, Inhabited

def Event.text : Event → String
  | recorded d => s!"record {d.kind.text} '{d.name}' at {d.position.text}"
  | redeclared r => s!"duplicate {r.kind.text} '{r.name}' at {r.position.text}"
  | idle slot token =>
    s!"{slot.word} hint on '{token.text}' at {token.position.text} carries no bareword"
  | classified c =>
    s!"{c.slot.word} '{c.name}' at {c.position.text} -> {c.category.word} ({c.level.text})"
  | aborted e => s!"abort: {e.message}"

def Event.line (e : Event) : String := s!"[BAREWORD_TRACE] {e.text}"

end WordRole
