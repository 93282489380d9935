/-!
# Kinds of declarations

What a name can be declared as, and sets of such kinds.  A set has one bit for each kind; its
elements are listed in the order of their bits (`KindSet.toList`).
-/

namespace WordRole

inductive DeclarationKind where
  | constant
  | callable
  | package
  | lexicalHandle
  | specialBlock
deriving DecidableEq, Repr, Inhabited

namespace DeclarationKind

/-- every kind, in the order in which sets are listed -/
def all : List DeclarationKind := [constant, callable, package, lexicalHandle, specialBlock]

def index : DeclarationKind → Fin 5
  | constant => 0
  | callable => 1
  | package => 2
  | lexicalHandle => 3
  | specialBlock => 4

def text : DeclarationKind → String
  | constant => "constant"
  | callable => "subroutine"
  | package => "package"
  | lexicalHandle => "lexical handle"
  | specialBlock => "special block"

theorem mem_all (k : DeclarationKind) : k ∈ all := by cases k <;> decide

theorem index_inj {j k : DeclarationKind} : j.index = k.index ↔ j = k := by
  cases j <;> cases k <;> decide

end DeclarationKind

/-- A set of kinds: the bit at the index of a kind is set if the kind is in it. -/
structure KindSet where
  bits : BitVec 5
deriving DecidableEq, Repr, Inhabited

namespace KindSet

def empty : KindSet := ⟨0⟩

def contains (s : KindSet) (k : DeclarationKind) : Bool := s.bits.getLsbD k.index

def insert (s : KindSet) (k : DeclarationKind) : KindSet :=
  ⟨s.bits ||| BitVec.twoPow 5 k.index⟩

def ofList (ks : List DeclarationKind) : KindSet := ks.foldl insert empty

/-- the elements, each once, in the order of `DeclarationKind.all` -/
def toList (s : KindSet) : List DeclarationKind := DeclarationKind.all.filter s.contains

def size (s : KindSet) : Nat := s.bits.cpop.toNat

def isEmpty (s : KindSet) : Bool := s.bits == 0

/-! ### Membership -/

@[simp] theorem contains_empty (k : DeclarationKind) : empty.contains k = false := by
  simp [contains, empty]

@[simp] theorem contains_insert (s : KindSet) (k j : DeclarationKind) :
    (s.insert k).contains j = (s.contains j || decide (j = k)) := by
  simp [contains, insert, ← DeclarationKind.index_inj, Fin.ext_iff, eq_comm]

theorem contains_ofList (ks : List DeclarationKind) (k : DeclarationKind) :
    (ofList ks).contains k = true ↔ k ∈ ks := by
  have h : ∀ s : KindSet, (ks.foldl insert s).contains k = true ↔ s.contains k = true ∨ k ∈ ks := by
    induction ks with
    | nil => simp
    | cons j ks ih => intro s; simp [ih, or_assoc]
  simpa [ofList] using h empty

theorem mem_toList (s : KindSet) (k : DeclarationKind) : k ∈ s.toList ↔ s.contains k = true := by
  simp [toList, DeclarationKind.mem_all]

/-! ### The elements and their bits -/

theorem size_eq_length_toList : ∀ s : KindSet, s.size = s.toList.length
  | ⟨bits⟩ => by
    revert bits
    decide

theorem isEmpty_eq_isEmpty_toList : ∀ s : KindSet, s.isEmpty = s.toList.isEmpty
  | ⟨bits⟩ => by
    revert bits
    decide

end KindSet

end WordRole
