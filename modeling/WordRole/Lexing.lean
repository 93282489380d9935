import WordRole.Notice
import WordRole.Segment

/-!
# The tokens of a source

The tokens are the segments that are tokens, in order; the lines of a heredoc are added to the text
of its marker.  Notices tell of literals and heredocs without an end and of characters that start no
token.
-/

namespace WordRole

/-- The tokens of a source and what was noticed on the way. -/
structure Lexed where
  tokens : List Token
  notices : List Notice
deriving DecidableEq, Repr, Inhabited

def Heredoc.unterminated (h : Heredoc) : Notice :=
  .unterminatedHeredoc (String.ofList h.terminator) h.position

namespace Segment

def bodies (s : Segment) : List Heredoc.Body :=
  match s.piece with
  | .heredocLines bodies => bodies
  | _ => []

/-- The tokens among segments, where `bodies` are the lines for the markers among them in order. -/
def tokens : List Heredoc.Body → List Segment → List Token
  | _, [] => []
  | bodies, s :: ss =>
    match s.token?, s.piece, bodies with
    | none, _, _ => tokens bodies ss
    | some t, .heredoc _, b :: bodies =>
      { t with text := String.ofList (s.text ++ b.text) } :: tokens bodies ss
    | some t, _, _ => t :: tokens bodies ss

def notices (s : Segment) : List Notice :=
  match s.piece with
  | .literal false => [.unterminatedLiteral s.position]
  | .stray c => [.unexpectedCharacter c s.position]
  | .heredocLines bodies =>
    (bodies.filter (·.closing.isNone)).map fun b => b.heredoc.unterminated
  | _ => []

end Segment

def lex (content : String) : Lexed :=
  let (segments, last) := Context.start.segments content.toList
  { tokens := Segment.tokens (segments.flatMap (·.bodies)) segments
    notices := segments.flatMap (·.notices) ++
      (last.due ++ last.announced).map Heredoc.unterminated }

end WordRole
