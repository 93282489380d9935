/-!
# TOML values

Tables remember how they came about, because that decides what may still be added to them: a header
opens a table once, a dotted key extends only tables that dotted keys have made, and an inline table
is complete where it stands.  Numbers and times are told apart by kind only.
-/

namespace WordRole

/-- How a table came about. -/
inductive TableOrigin where
  | header
  /-- by a longer header -/
  | implied
  /-- by a dotted key -/
  | dotted
  | inline
deriving DecidableEq, Repr, Inhabited

inductive Toml where
  | string (s : String)
  | number
  | boolean (b : Bool)
  | datetime
  | array (items : List Toml)
  | table (origin : TableOrigin) (entries : List (String × Toml))
  /-- tables that headers in double brackets have opened, the last of them apart -/
  | tables (before : List (List (String × Toml))) (last : List (String × Toml))
deriving Repr, Inhabited

namespace Toml

abbrev Entries := List (String × Toml)

namespace Entries

/-- the entries with the value of a name changed, if the change is allowed -/
def alter? (name : String) (change : Option Toml → Option Toml) : Entries → Option Entries
  | [] => (change none).map fun v => [(name, v)]
  | (n, v) :: es =>
    if n = name then (change (some v)).map fun v => (n, v) :: es
    else (alter? name change es).map ((n, v) :: ·)

def get? (es : Entries) (name : String) : Option Toml := (es.find? fun e => e.1 == name).map (·.2)

/-- The entries with the table at a path changed, which is made if it is not there.  A dotted path
does not lead through tables that a header has opened. -/
def descend (dotted : Bool) (change : TableOrigin → Entries → Option Entries) :
    List String → TableOrigin → Entries → Option Entries
  | [], origin, es => change origin es
  | name :: path, _, es =>
    es.alter? name fun
      | none =>
        let origin := if dotted then .dotted else .implied
        (descend dotted change path origin []).map (.table origin)
      | some (.table origin es) =>
        if origin = .inline || (dotted && origin = .header) then none
        else (descend dotted change path origin es).map (.table origin)
      | some (.tables before last) =>
        (descend dotted change path .header last).map (.tables before)
      | some _ => none

/-- The entries with a new one at a dotted key, below the table they belong to.  The key adds to
tables of dotted keys only, or to that table itself. -/
def insert? (path : List String) (name : String) (v : Toml) (origin : TableOrigin) (es : Entries) :
    Option Entries :=
  es.descend true (fun origin es =>
      if (origin = .dotted) = path.isEmpty then none
      else if (es.get? name).isSome then none
      else some (es ++ [(name, v)]))
    path origin

/-- the entries with the table that a header opens -/
def openTable? (path : List String) (name : String) (es : Entries) : Option Entries :=
  es.descend false (fun _ es =>
      es.alter? name fun
        | none => some (.table .header [])
        | some (.table .implied es) => some (.table .header es)
        | some _ => none)
    path .header

/-- the entries with the table that a header in double brackets opens -/
def openElement? (path : List String) (name : String) (es : Entries) : Option Entries :=
  es.descend false (fun _ es =>
      es.alter? name fun
        | none => some (.tables [] [])
        | some (.tables before last) => some (.tables (before ++ [last]) [])
        | some _ => none)
    path .header

end Entries

/-! ## Documents -/

/-- A line of a document: a key with its value, or a header.  The last name of a key stands apart
from the path to it. -/
inductive Line where
  | entry (path : List String) (name : String) (v : Toml)
  | header (path : List String) (name : String)
  | elementHeader (path : List String) (name : String)
deriving Repr, Inhabited

/-- the table that a document's lines have filled, with the path of the table that is open -/
structure Building where
  current : List String
  root : Entries
deriving Repr, Inhabited

/-- the table after one more line -/
def Building.next? (b : Building) : Line → Option Building
  | .entry path name v =>
    (b.root.descend false (Entries.insert? path name v) b.current .header).map (⟨b.current, ·⟩)
  | .header path name => (b.root.openTable? path name).map (⟨path ++ [name], ·⟩)
  | .elementHeader path name => (b.root.openElement? path name).map (⟨path ++ [name], ·⟩)

/-- the table that lines make up -/
def ofLines? (ls : List Line) : Option Entries :=
  (ls.foldlM Building.next? ⟨[], []⟩).map (·.root)

/-- the inline table that entries make up -/
def inlineTable? (es : List (List String × String × Toml)) : Option Toml :=
  (es.foldlM (fun (t : Entries) (e : List String × String × Toml) =>
    t.insert? e.1 e.2.1 e.2.2 .inline) []).map (.table .inline)

end Toml

end WordRole
