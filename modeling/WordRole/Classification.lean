import WordRole.Category
import WordRole.Declaration.Table
import WordRole.Slot.Basic
import WordRole.Vocabulary

/-!
# Classifications

A slotted word with the tokens on both sides of it and the declarations before it is an
`Occurrence`.  `Occurrence.classify` finds its category by a rule for each slot, with the reason in
words and with what the word declares (`Ruling`).  The rules look at nothing else, so no later
declaration changes a classification.
-/

namespace WordRole

/-- What has been found out about a word. -/
structure Classification where
  code : String
  name : String
  slot : Slot
  position : Position
  category : Category
  level : AmbiguityLevel
  rationale : String
  /-- the rewrite proposed, if there is one -/
  rewrite : Option String
  /-- set for constants, which strings do not show -/
  nonInterpolating : Bool
deriving DecidableEq, Repr, Inhabited

/-- What a rule says of a word: its classification, and what it declares from then on. -/
structure Ruling extends Classification where
  declares : Option DeclarationKind
deriving DecidableEq, Repr, Inhabited

instance : Coe Ruling Classification := ⟨Ruling.toClassification⟩

def Ruling.declaring (r : Ruling) (kind : DeclarationKind) : Ruling :=
  { r with declares := some kind }

/-- A comparator that is neither a name, nor a block, nor a scalar. -/
structure InvalidComparator where
  text : String
  position : Position
deriving DecidableEq, Repr, Inhabited

namespace InvalidComparator

def code : String := "B0502"

def message (e : InvalidComparator) : String :=
  s!"invalid ordering operand '{e.text}' at {e.position.text}: the comparator of sort must be " ++
    "a subroutine name, a block, or a scalar holding a code reference"

end InvalidComparator

/-- A slotted token as the rules see it. -/
structure Occurrence where
  token : Token
  slot : Slot
  previous : Option Token
  next : Option Token
  /-- what is declared before the token -/
  declared : DeclarationTable
deriving DecidableEq, Repr, Inhabited

namespace Occurrence

def name (o : Occurrence) : String := o.token.name

/-- where the name was first declared as a kind -/
def declaredAt (o : Occurrence) (kind : DeclarationKind) : Option Position :=
  o.declared.first? o.name kind

def isDeclared (o : Occurrence) (kind : DeclarationKind) : Bool :=
  (o.declared.kindsOf o.name).contains kind

theorem isDeclared_eq_isSome (o : Occurrence) (kind : DeclarationKind) :
    o.isDeclared kind = (o.declaredAt kind).isSome := o.declared.contains_kindsOf o.name kind

def nextIs (o : Occurrence) (p : Token → Bool) : Bool := o.next.any p

def previousIs (o : Occurrence) (p : Token → Bool) : Bool := o.previous.any p

/-- the word in a category, as ambiguous as a level says, for a reason -/
def inCategory (o : Occurrence) (c : Category) (level : AmbiguityLevel) (rationale : String) :
    Ruling where
  code := c.code
  name := o.name
  slot := o.slot
  position := o.token.position
  category := c
  level := level
  rationale := rationale
  rewrite := none
  nonInterpolating := c.isConstant
  declares := none

/-- a place in words, after what was declared there -/
def placed : Option Position → String
  | some p => s!" at {p.text}"
  | none => ""

/-! ### The rule of each slot -/

def constantReference (o : Occurrence) : Ruling :=
  o.inCategory .constantReference .unambiguous <|
    s!"'{o.name}' was declared as a constant{placed (o.declaredAt .constant)}; " ++
      "it is not interpolated inside double-quoted strings"

/-- A key that stands alone is a string, whatever it is declared as; a mark before it or arguments
after it have it evaluated. -/
def containerKey (o : Occurrence) : Ruling :=
  if o.previousIs (·.isOperator Token.evaluationMark) then
    o.inCategory .evaluatedKey .unambiguous
      s!"unary '+' forces '{o.name}' to be evaluated; its result is the key"
  else if o.nextIs fun t => !(t.isDelimiter "\x7d" || t.isFatComma || t.isPunctuation "," ||
      t.isNamespaceSeparator) then
    o.inCategory .evaluatedKey .unambiguous
      s!"'{o.name}' is followed by call arguments; the key is the result of the call"
  else
    let literal := o.inCategory .literalKey .unambiguous
      s!"a lone bareword key is always the literal string '{o.name}'"
    let shadowed (kind : DeclarationKind) (first : Position) (use : String) : Ruling :=
      { literal with
        rationale := s!"a lone bareword key is always the literal string '{o.name}'; " ++
          s!"the {kind.text} declared at {first.text} is not used"
        rewrite := some <| s!"use unary evaluation marker: \x7b+{o.name}\x7d or " ++
          s!"\x7b{o.name}()\x7d to {use}" }
    match o.declaredAt .constant, o.declaredAt .callable with
    | some p, _ => shadowed .constant p "use the constant"
    | none, some p => shadowed .callable p "call the subroutine"
    | none, none => literal

/-- A word before an arrow or a separator is a package if it is written or declared as one only. -/
def memberAccess (o : Occurrence) : Ruling :=
  if o.nextIs Token.isNamespaceSeparator then
    o.inCategory .namespaceName .unambiguous
      s!"trailing '::' names the package '{o.name}' explicitly"
  else match o.isDeclared .package, o.isDeclared .callable with
    | true, false =>
      o.inCategory .namespaceName .unambiguous
        s!"'{o.name}' was declared as a package{placed (o.declaredAt .package)}"
    | true, true =>
      o.inCategory .ambiguousCallableOrNamespace .ambiguousRequiresRewrite <|
        s!"'{o.name}' is declared both as a package and as a subroutine; the invocant depends " ++
          "on which one the parser prefers"
    | false, true =>
      o.inCategory .ambiguousCallableOrNamespace .ambiguousRequiresRewrite <|
        s!"'{o.name}' is a declared subroutine, so the call's result becomes the invocant " ++
          s!"instead of the package '{o.name}'"
    | false, false =>
      o.inCategory .ambiguousCallableOrNamespace .ambiguousRequiresRewrite <|
        s!"'{o.name}' is not a known package; if a subroutine '{o.name}' exists when this runs, " ++
          "its result becomes the invocant"

/-- A word as a statement calls the subroutine of that name, if there is one. -/
def statementCall (o : Occurrence) : Ruling :=
  match o.declaredAt .callable with
  | some p => o.inCategory .barewordCall .priorArtLegacy
      s!"calls the subroutine '{o.name}' declared at {p.text} without parentheses"
  | none => o.inCategory .unknownIdentifierError .ambiguousRequiresRewrite
      s!"bareword '{o.name}' in call position, but no subroutine '{o.name}' is declared"

/-- A special block needs one of the five names and a brace; other words there are statements. -/
def specialBlock (o : Occurrence) : Ruling :=
  if !Vocabulary.isSpecialBlock o.name || !o.nextIs (·.isDelimiter "\x7b") then o.statementCall
  else
    (o.inCategory .implicitCallableDeclaration .conventionalButRisky
      s!"'{o.name} \x7b ... \x7d' declares a special block without the 'sub' keyword").declaring
      .specialBlock

/-- The slot of a declaration says what is declared. -/
def declaration (o : Occurrence) : Ruling :=
  let (c, kind) : Category × DeclarationKind :=
    match o.slot with
    | .constantDeclaration => (.constantDeclaration, .constant)
    | .namespaceDeclaration => (.namespaceDeclaration, .package)
    | .lexicalHandleDeclaration => (.lexicalHandleDeclaration, .lexicalHandle)
    | _ => (.callableDeclaration, .callable)
  let rationale :=
    match kind with
    | .constant => s!"'{o.name}' is declared as a constant; later barewords '{o.name}' refer to " ++
        "it and are not interpolated"
    | _ => s!"'{o.name}' is declared as a {kind.text}"
  (o.inCategory c .unambiguous rationale).declaring kind

/-- A value after a fat comma is the result of a declared subroutine, or else a string. -/
def pairValue (o : Occurrence) : Ruling :=
  match o.declaredAt .callable with
  | some p => o.inCategory .implicitCall .ambiguousRequiresRewrite <|
      s!"'{o.name}' names the subroutine declared at {p.text}; the value is its result, " ++
        s!"not the string '{o.name}'"
  | none => o.inCategory .literalStringLegacy .priorArtLegacy
      s!"no subroutine '{o.name}' is declared yet, so the value is the string '{o.name}'"

/-- A handle is one of the standard ones or a global of the package. -/
def ioHandle (o : Occurrence) : Ruling :=
  if Vocabulary.isStandardHandle o.name then
    o.inCategory .standardHandle .unambiguous s!"'{o.name}' is a standard handle"
  else
    { o.inCategory .legacyGlobalHandle .priorArtLegacy
        s!"'{o.name}' is a package-global bareword filehandle" with
      rewrite := (o.declaredAt .lexicalHandle).map fun p =>
        s!"use the lexical handle declared at {p.text}: write ${o.name} instead of {o.name}" }

/-- A word in the place of a comparator is the name of a subroutine. -/
def comparatorName (o : Occurrence) : Ruling :=
  o.inCategory .comparatorNameReference .conventionalButRisky <|
    match o.declaredAt .callable with
    | some p => s!"'{o.name}' refers to the comparator subroutine declared at {p.text}; " ++
        "the bare name is easy to misread as a list element"
    | none => s!"'{o.name}' is taken as a comparator subroutine name, but no such subroutine is " ++
        "declared yet; it is resolved when sort runs"

/-- A comparator may be a block or a scalar, which hold no word, or the name of a subroutine. -/
def comparator (o : Occurrence) : Except InvalidComparator (Option Ruling) :=
  if o.token.isDelimiter "\x7b" || o.token.isScalarVariable then .ok none
  else if !o.token.isBareword then .error ⟨o.token.text, o.token.position⟩
  else .ok (some o.comparatorName)

/-- The rule of the slot.  In the slots that refer to something, a constant of the name comes
first. -/
def bareword (o : Occurrence) : Ruling :=
  let unlessConstant (rule : Occurrence → Ruling) : Ruling :=
    if o.isDeclared .constant then o.constantReference else rule o
  match o.slot with
  | .containerKey => o.containerKey
  | .memberAccess => unlessConstant memberAccess
  | .specialBlock => o.specialBlock
  | .constantDeclaration | .callableDeclaration | .namespaceDeclaration
  | .lexicalHandleDeclaration => o.declaration
  | .pairValue => unlessConstant pairValue
  | .statementCall => unlessConstant statementCall
  | .ioHandle => unlessConstant ioHandle
  | .orderingComparator => o.comparatorName

/-- What the occurrence is: nothing if it holds no bareword, a fault if it is a comparator that
cannot be one. -/
def classify (o : Occurrence) : Except InvalidComparator (Option Ruling) :=
  if o.slot = .orderingComparator then o.comparator
  else if o.slot = .lexicalHandleDeclaration && o.token.isScalarVariable then
    .ok (some o.declaration)
  else if !o.token.isBareword then .ok none
  else .ok (some o.bareword)

end Occurrence

end WordRole
