import WordRole.Slot.Basic
import WordRole.Vocabulary

/-!
# Braces

What an opening brace opens is told by the tokens before it and, after a closing brace, by what that
one has closed.
-/

namespace WordRole

inductive Brace where
  | block
  | subscript
  | anonymousHash
  /-- the names and values after `use constant` -/
  | constantList
deriving DecidableEq, Repr, Inhabited

namespace Token

def hasSigil (t : Token) (sigils : List Char) : Bool := t.sigil?.any (sigils.contains ·)

/-- whether the tokens before a place, nearest first, are those of `use constant` -/
def endUseConstant : List Token → Bool
  | constant :: use :: _ => constant.isWord "constant" && use.isWord "use"
  | _ => false

end Token

namespace Brace

/-- What a brace opens, by the kind and text of the token before it. -/
def afterToken (t : Token) : Brace :=
  match t.kind with
  | .operator => if ["$", "@", "%", "&"].contains t.text then .block else .anonymousHash
  | .punctuation => if t.text = "," then .anonymousHash else .block
  | .delimiter => if ["(", "["].contains t.text then .anonymousHash else .block
  | .identifier => if t.text = "return" then .anonymousHash else .block
  | .stringLiteral | .number => .block

/-- What a brace opens, by the tokens before it, nearest first, and what the token before it has
closed. -/
def opened (before : List Token) (closed : Option Brace) : Brace :=
  match before with
  | [] => .block
  | t :: _ =>
    if Token.endUseConstant before then .constantList
    else if t.hasSigil ['$', '@', '%'] || t.isMemberArrow then .subscript
    else if t.isDelimiter "]" || (t.isDelimiter "\x7d" && closed = some .subscript) then .subscript
    else afterToken t

end Brace

end WordRole
