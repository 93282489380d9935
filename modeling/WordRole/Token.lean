import WordRole.Position

/-!
# Tokens

A token is a kind, a text and a position.  A variable such as `$x` or `@_` is an identifier whose
text keeps its sigil; an identifier that starts with a letter or an underscore is a bareword.
-/

namespace WordRole

/-! ## Characters of names -/

/-- an ASCII letter or an underscore, which may start a name -/
def isNameStart (c : Char) : Bool := c.isAlpha || c = '_'

/-- a character of a name after its first -/
def isNameChar (c : Char) : Bool := isNameStart c || c.isDigit

theorem isNameChar_of_isNameStart {c : Char} (h : isNameStart c = true) : isNameChar c = true := by
  simp [isNameChar, h]

theorem isNameChar_eq : isNameChar = fun c => c.isAlphanum || c = '_' := by
  funext c
  unfold isNameChar isNameStart Char.isAlphanum
  cases c.isAlpha <;> cases c.isDigit <;> simp

/-! ## Kinds and tokens -/

/-- What a token is, as far as its spelling tells. -/
inductive TokenKind where
  | identifier
  | punctuation
  | operator
  | stringLiteral
  | number
  | delimiter
deriving DecidableEq, Repr, Inhabited

structure Token where
  kind : TokenKind
  text : String
  position : Position
deriving DecidableEq, Repr, Inhabited

namespace TokenKind

def all : List TokenKind :=
  [identifier, punctuation, operator, stringLiteral, number, delimiter]

def word : TokenKind → String
  | identifier => "identifier"
  | punctuation => "punctuation"
  | operator => "operator"
  | stringLiteral => "string_literal"
  | number => "number"
  | delimiter => "delimiter"

def ofWord? (w : String) : Option TokenKind := all.find? fun k => k.word == w

theorem ofWord?_word (k : TokenKind) : ofWord? k.word = some k := by cases k <;> decide

end TokenKind

namespace Token

def namespaceSeparator : String := "::"

/-- the arrow before a method name or a subscript -/
def memberArrow : String := "->"

/-- the comma that quotes the word before it -/
def fatComma : String := "=>"

/-- the mark that has a key evaluated -/
def evaluationMark : String := "+"

/-- whether a token is a name without a sigil -/
def isBareword (t : Token) : Bool :=
  t.kind = .identifier && t.text.toList.head?.any isNameStart

/-- the mark that a variable or an explicit call starts with -/
def sigil? (t : Token) : Option Char :=
  if t.kind = .identifier then t.text.toList.head?.filter (['$', '@', '%', '&'].contains ·)
  else none

/-- whether a token is a scalar with a plain or qualified name -/
def isScalarVariable (t : Token) : Bool :=
  t.sigil? = some '$' && t.text.toList.tail ≠ [] &&
    t.text.toList.tail.all fun c => c.isAlphanum || c = '_' || c = ':'

/-- the text of a token without the sigil that it starts with, however often that stands there -/
def name (t : Token) : String :=
  match t.sigil? with
  | some sigil => String.ofList (t.text.toList.dropWhile (· = sigil))
  | none => t.text

def isDelimiter (t : Token) (text : String) : Bool := t.kind = .delimiter && t.text == text

def isPunctuation (t : Token) (text : String) : Bool := t.kind = .punctuation && t.text == text

def isOperator (t : Token) (text : String) : Bool := t.kind = .operator && t.text == text

def isWord (t : Token) (text : String) : Bool := t.kind = .identifier && t.text == text

def isNamespaceSeparator (t : Token) : Bool := t.isPunctuation namespaceSeparator

def isMemberArrow (t : Token) : Bool := t.isOperator memberArrow

def isFatComma (t : Token) : Bool := t.isOperator fatComma

/-- whether a text opens a heredoc with a bare or a double-quoted tag -/
def opensInterpolatingHeredoc : List Char → Bool
  | '<' :: '<' :: tag => (tag.dropWhile (· = '~')).head?.any fun c => c = '"' || isNameStart c
  | _ => false

/-- whether variables in a string literal are replaced by their values -/
def interpolates (t : Token) : Bool :=
  t.kind = .stringLiteral &&
    ("\"".toList.isPrefixOf t.text.toList || "qq".toList.isPrefixOf t.text.toList ||
      opensInterpolatingHeredoc t.text.toList)

end Token

end WordRole
