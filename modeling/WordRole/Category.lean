import WordRole.Declaration.Kind

/-!
# Categories

What a bareword turns out to be, and how ambiguous that makes it.  Its category fixes the code of
the finding and which rewrite is proposed for it.  Five categories are those of declarations, one
for each kind (`Category.declares_eq_some_iff`).
-/

namespace WordRole

/-- How ambiguous a word is, from harmless to in need of a rewrite. -/
inductive AmbiguityLevel where
  | unambiguous
  | conventionalButRisky
  | priorArtLegacy
  | ambiguousRequiresRewrite
deriving DecidableEq, Repr, Inhabited

namespace AmbiguityLevel

def all : List AmbiguityLevel :=
  [unambiguous, conventionalButRisky, priorArtLegacy, ambiguousRequiresRewrite]

def word : AmbiguityLevel → String
  | unambiguous => "Unambiguous"
  | conventionalButRisky => "ConventionalButRisky"
  | priorArtLegacy => "PriorArtLegacy"
  | ambiguousRequiresRewrite => "AmbiguousRequiresRewrite"

def ofWord? (w : String) : Option AmbiguityLevel := all.find? fun l => l.word == w

theorem ofWord?_word (l : AmbiguityLevel) : ofWord? l.word = some l := by cases l <;> decide

def text : AmbiguityLevel → String
  | unambiguous => "unambiguous"
  | conventionalButRisky => "conventional but risky"
  | priorArtLegacy => "legacy"
  | ambiguousRequiresRewrite => "ambiguous"

end AmbiguityLevel

/-- What a bareword turns out to be. -/
inductive Category where
  | literalKey
  | evaluatedKey
  | namespaceName
  | ambiguousCallableOrNamespace
  | implicitCallableDeclaration
  | constantDeclaration
  | constantReference
  | callableDeclaration
  | namespaceDeclaration
  | lexicalHandleDeclaration
  | implicitCall
  | literalStringLegacy
  | barewordCall
  | unknownIdentifierError
  | standardHandle
  | legacyGlobalHandle
  | comparatorNameReference
deriving DecidableEq, Repr, Inhabited

namespace Category

def all : List Category :=
  [literalKey, evaluatedKey, namespaceName, ambiguousCallableOrNamespace,
   implicitCallableDeclaration, constantDeclaration, constantReference, callableDeclaration,
   namespaceDeclaration, lexicalHandleDeclaration, implicitCall, literalStringLegacy,
   barewordCall, unknownIdentifierError, standardHandle, legacyGlobalHandle,
   comparatorNameReference]

def word : Category → String
  | literalKey => "LiteralKey"
  | evaluatedKey => "EvaluatedKey"
  | namespaceName => "NamespaceName"
  | ambiguousCallableOrNamespace => "AmbiguousCallableOrNamespace"
  | implicitCallableDeclaration => "ImplicitCallableDeclaration"
  | constantDeclaration => "ConstantDeclaration"
  | constantReference => "ConstantReference"
  | callableDeclaration => "CallableDeclaration"
  | namespaceDeclaration => "NamespaceDeclaration"
  | lexicalHandleDeclaration => "LexicalHandleDeclaration"
  | implicitCall => "ImplicitCall"
  | literalStringLegacy => "LiteralStringLegacy"
  | barewordCall => "BarewordCall"
  | unknownIdentifierError => "UnknownIdentifierError"
  | standardHandle => "StandardHandle"
  | legacyGlobalHandle => "LegacyGlobalHandle"
  | comparatorNameReference => "ComparatorNameReference"

def ofWord? (w : String) : Option Category := all.find? fun c => c.word == w

theorem ofWord?_word (c : Category) : ofWord? c.word = some c := by cases c <;> decide

def code : Category → String
  | literalKey => "B0101"
  | evaluatedKey => "B0102"
  | namespaceName => "B0103"
  | constantReference => "B0104"
  | standardHandle => "B0105"
  | callableDeclaration => "B0106"
  | namespaceDeclaration => "B0107"
  | constantDeclaration => "B0108"
  | lexicalHandleDeclaration => "B0109"
  | implicitCallableDeclaration => "B0201"
  | comparatorNameReference => "B0202"
  | literalStringLegacy => "B0301"
  | barewordCall => "B0302"
  | legacyGlobalHandle => "B0303"
  | ambiguousCallableOrNamespace => "B0401"
  | implicitCall => "B0402"
  | unknownIdentifierError => "B0501"

/-- whether the word names nothing that exists -/
def isError (c : Category) : Bool := c = unknownIdentifierError

/-- whether the word is a constant, which strings do not show -/
def isConstant (c : Category) : Bool := c = constantDeclaration || c = constantReference

/-- The rewrite proposed for a word of the category, where the rule that judged it gave none. -/
def rewrite? (c : Category) (name : String) : Option String :=
  match c with
  | ambiguousCallableOrNamespace => some s!"append namespace separator: {name}::->method"
  | implicitCall => some s!"add parentheses: {name}()"
  | literalStringLegacy => some s!"quote the string: '{name}'"
  | barewordCall => some s!"add parentheses: {name}();"
  | unknownIdentifierError =>
    some s!"declare 'sub {name}' before this line, call it as {name}(), or quote it as '{name}'"
  | legacyGlobalHandle =>
    some s!"use a lexical handle: open(my $fh, ...) and pass $fh instead of {name}"
  | comparatorNameReference =>
    some <| s!"assign a reference to a named scalar instead of passing the bare name: " ++
      s!"my $by_{name} = \\&{name}; sort $by_{name} LIST"
  | implicitCallableDeclaration =>
    some s!"spell the declaration out: sub {name} \x7b ... \x7d"
  | literalKey | evaluatedKey | namespaceName | constantDeclaration | constantReference
  | callableDeclaration | namespaceDeclaration | lexicalHandleDeclaration | standardHandle => none

end Category

/-! ### Declarations -/

/-- the category of the words that declare a kind -/
def DeclarationKind.category : DeclarationKind → Category
  | constant => .constantDeclaration
  | callable => .callableDeclaration
  | package => .namespaceDeclaration
  | lexicalHandle => .lexicalHandleDeclaration
  | specialBlock => .implicitCallableDeclaration

namespace Category

/-- the kind that words of the category declare, if they declare one -/
def declares (c : Category) : Option DeclarationKind :=
  DeclarationKind.all.find? fun kind => c = kind.category

theorem declares_eq_some_iff {c : Category} {k : DeclarationKind} :
    c.declares = some k ↔ c = k.category := by
  cases c <;> cases k <;> decide

end Category

end WordRole
