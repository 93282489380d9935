import WordRole.Position
import WordRole.Declaration.Kind

/-!
# The declaration table

What has been declared so far in a unit: for each name its kinds with the first place of each, and a
log in order.  A name is recorded once for each kind; a second declaration of both is refused and
leaves the table as it was.  A table is a value, so one kept from earlier answers what was known
then.
-/

namespace WordRole

structure Declaration where
  name : String
  kind : DeclarationKind
  position : Position
deriving DecidableEq, Repr, Inhabited

/-- A declaration of a name and kind that the table already has. -/
structure Redeclaration where
  name : String
  kind : DeclarationKind
  first : Position
  position : Position
deriving DecidableEq, Repr, Inhabited

def Redeclaration.message (r : Redeclaration) : String :=
  s!"{r.kind.text} '{r.name}' redeclared at {r.position.text} (first declared at {r.first.text})"

/-- What is known of one name: the kinds it is declared as, and where it was first declared as each
of them. -/
structure NameEntry where
  kinds : KindSet
  /-- the first places, by the index of the kind -/
  first : Vector (Option Position) 5
  /-- the kinds are those with a place -/
  contains_kinds : ∀ kind, kinds.contains kind = first[kind.index].isSome
deriving DecidableEq, Repr

namespace NameEntry

def empty : NameEntry where
  kinds := .empty
  first := .replicate 5 none
  contains_kinds := by simp

instance : Inhabited NameEntry := ⟨empty⟩

def first? (e : NameEntry) (kind : DeclarationKind) : Option Position := e.first[kind.index]

theorem first_set (v : Vector (Option Position) 5) (j kind : DeclarationKind)
    (p : Option Position) : (v.set kind.index p)[j.index] = if j = kind then p else v[j.index] := by
  simp only [Fin.getElem_fin, Vector.getElem_set, Fin.val_inj, DeclarationKind.index_inj,
    eq_comm (a := kind)]

def declare (e : NameEntry) (kind : DeclarationKind) (position : Position) : NameEntry where
  kinds := e.kinds.insert kind
  first := e.first.set kind.index (some position)
  contains_kinds j := by
    rw [KindSet.contains_insert, e.contains_kinds, first_set]
    by_cases h : j = kind <;> simp [h]

@[simp] theorem first?_empty (kind : DeclarationKind) : empty.first? kind = none := by
  simp [first?, empty]

theorem first?_declare (e : NameEntry) (kind : DeclarationKind) (position : Position)
    (j : DeclarationKind) :
    (e.declare kind position).first? j = if j = kind then some position else e.first? j :=
  first_set e.first j kind (some position)

end NameEntry

/-- The declarations recorded so far: entries by name, of which the first one of a name counts, and
a log of them in order. -/
structure DeclarationTable where
  names : List (String × NameEntry)
  log : List Declaration
deriving DecidableEq, Repr, Inhabited

namespace DeclarationTable

def empty : DeclarationTable := ⟨[], []⟩

def entry (t : DeclarationTable) (name : String) : NameEntry :=
  (t.names.lookup name).getD .empty

/-- where a name was first declared as a kind -/
def first? (t : DeclarationTable) (name : String) (kind : DeclarationKind) : Option Position :=
  (t.entry name).first? kind

def kindsOf (t : DeclarationTable) (name : String) : KindSet := (t.entry name).kinds

/-- the table with a declaration in the entry of its name and in the log -/
def insert (t : DeclarationTable) (d : Declaration) : DeclarationTable where
  names := (d.name, (t.entry d.name).declare d.kind d.position) :: t.names
  log := t.log ++ [d]

/-- the table with one more declaration, unless it has the name and kind already -/
def record (t : DeclarationTable) (d : Declaration) : Except Redeclaration DeclarationTable :=
  match t.first? d.name d.kind with
  | some first => .error ⟨d.name, d.kind, first, d.position⟩
  | none => .ok (t.insert d)

/-- the table after one more declaration, the same one if that is refused -/
def push (t : DeclarationTable) (d : Declaration) : DeclarationTable :=
  (t.record d).toOption.getD t

/-- the table with a list of declarations recorded in order, the repeated ones left out -/
def recordAll (t : DeclarationTable) (ds : List Declaration) : DeclarationTable :=
  ds.foldl push t

def size (t : DeclarationTable) : Nat := t.log.length

def isEmpty (t : DeclarationTable) : Bool := t.log.isEmpty

/-! ### The table through `first?` -/

@[simp] theorem first?_empty (name : String) (kind : DeclarationKind) :
    empty.first? name kind = none := NameEntry.first?_empty kind

theorem contains_kindsOf (t : DeclarationTable) (name : String) (kind : DeclarationKind) :
    (t.kindsOf name).contains kind = (t.first? name kind).isSome :=
  (t.entry name).contains_kinds kind

theorem entry_insert (t : DeclarationTable) (d : Declaration) (name : String) :
    (t.insert d).entry name =
      if name = d.name then (t.entry name).declare d.kind d.position else t.entry name := by
  simp only [entry, insert, List.lookup_cons]
  by_cases h : name = d.name
  · simp [h]
  · simp only [beq_false_of_ne h, if_neg h]

theorem first?_insert (t : DeclarationTable) (d : Declaration) (name : String)
    (kind : DeclarationKind) : (t.insert d).first? name kind =
      if d.name = name ∧ d.kind = kind then some d.position else t.first? name kind := by
  unfold first?
  rw [entry_insert]
  by_cases hname : name = d.name
  · rw [if_pos hname, NameEntry.first?_declare]
    simp [hname, eq_comm]
  · rw [if_neg hname, if_neg (fun h => hname h.1.symm)]

/-! ### One more declaration, taken or refused -/

theorem push_of_record_ok {t u : DeclarationTable} {d : Declaration} (h : t.record d = .ok u) :
    t.push d = u := by
  unfold push
  rw [h]
  rfl

theorem push_of_record_error {t : DeclarationTable} {d : Declaration} {r : Redeclaration}
    (h : t.record d = .error r) : t.push d = t := by
  unfold push
  rw [h]
  rfl

theorem push_eq (t : DeclarationTable) (d : Declaration) :
    t.push d = if (t.first? d.name d.kind).isNone then t.insert d else t := by
  unfold push record
  cases t.first? d.name d.kind <;> rfl

theorem first?_push (t : DeclarationTable) (d : Declaration) (name : String)
    (kind : DeclarationKind) : (t.push d).first? name kind = (t.first? name kind).or
      (if d.name = name ∧ d.kind = kind then some d.position else none) := by
  rw [push_eq]
  by_cases h : d.name = name ∧ d.kind = kind
  · obtain ⟨rfl, rfl⟩ := h
    cases hf : t.first? d.name d.kind with
    | none => simp [first?_insert]
    | some first => simp [hf]
  · rw [if_neg h, Option.or_none]
    split
    · rw [first?_insert, if_neg h]
    · rfl

theorem log_push (t : DeclarationTable) (d : Declaration) :
    (t.push d).log = t.log ++ if (t.first? d.name d.kind).isNone then [d] else [] := by
  rw [push_eq]
  split
  · rfl
  · exact (List.append_nil _).symm

theorem recordAll_append (t : DeclarationTable) (ds es : List Declaration) :
    t.recordAll (ds ++ es) = (t.recordAll ds).recordAll es := List.foldl_append

theorem recordAll_concat (t : DeclarationTable) (ds : List Declaration) (d : Declaration) :
    t.recordAll (ds ++ [d]) = (t.recordAll ds).push d := t.recordAll_append ds [d]

end DeclarationTable

end WordRole
