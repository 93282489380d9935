import WordRole.Token

/-!
# Slots

A slot is the grammatical place of a word, such as the key of a container or the value of a pair.
-/

namespace WordRole

/-- The place of a word in the grammar. -/
inductive Slot where
  | containerKey
  | memberAccess
  | specialBlock
  | constantDeclaration
  | callableDeclaration
  | namespaceDeclaration
  | lexicalHandleDeclaration
  | pairValue
  | statementCall
  | ioHandle
  | orderingComparator
deriving DecidableEq, Repr, Inhabited

/-- A token with the slot it stands in, if it stands in one. -/
structure SlottedToken where
  token : Token
  slot : Option Slot
deriving DecidableEq, Repr, Inhabited

namespace Slot

def all : List Slot :=
  [containerKey, memberAccess, specialBlock, constantDeclaration, callableDeclaration,
   namespaceDeclaration, lexicalHandleDeclaration, pairValue, statementCall, ioHandle,
   orderingComparator]

def word : Slot → String
  | containerKey => "container_key"
  | memberAccess => "member_access"
  | specialBlock => "special_block"
  | constantDeclaration => "constant_declaration"
  | callableDeclaration => "callable_declaration"
  | namespaceDeclaration => "namespace_declaration"
  | lexicalHandleDeclaration => "lexical_handle_declaration"
  | pairValue => "pair_value"
  | statementCall => "statement_call"
  | ioHandle => "io_handle"
  | orderingComparator => "ordering_comparator"

def ofWord? (w : String) : Option Slot := all.find? fun s => s.word == w

theorem ofWord?_word (s : Slot) : ofWord? s.word = some s := by cases s <;> decide

def isDeclaration : Slot → Bool
  | constantDeclaration | callableDeclaration | namespaceDeclaration
  | lexicalHandleDeclaration => true
  | _ => false

end Slot

end WordRole
