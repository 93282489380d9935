import WordRole.Files.Path

/-!
# Files and directories

A finite tree of directories and files.  `Entry.inputs` walks the tree, and `FileTree.look` follows
a path through it.
-/

namespace WordRole

/-- Why what a path leads to cannot be had. -/
inductive AccessError where
  | missing
  | notDirectory
  | isDirectory
  | denied
  | invalidText
  | invalidPath
  | other (text : String)
deriving DecidableEq, Repr, Inhabited

def AccessError.message : AccessError → String
  | missing => "No such file or directory (os error 2)"
  | notDirectory => "Not a directory (os error 20)"
  | isDirectory => "Is a directory (os error 21)"
  | denied => "Permission denied (os error 13)"
  | invalidText => "stream did not contain valid UTF-8"
  | invalidPath => "file name contained an unexpected NUL byte"
  | other text => text

/-- A file, or a directory with the names in it. -/
inductive Entry where
  | file (bytes : ByteArray)
  | directory (entries : List (String × Entry))
deriving Inhabited

structure FoundFile where
  path : String
  bytes : ByteArray

namespace Entry

def text : Entry → Except AccessError String
  | .file bytes =>
    match String.fromUTF8? bytes with
    | some s => .ok s
    | none => .error .invalidText
  | .directory _ => .error .isDirectory

def isFile : Entry → Bool
  | .file _ => true
  | .directory _ => false

/-! ## Files that can be analysed -/

mutual

/-- the sources and documents at a path and below -/
def inputs (path : String) : Entry → List FoundFile
  | .file bytes => if Path.isInput path then [⟨path, bytes⟩] else []
  | .directory entries => inputsIn path entries

/-- the sources and documents below a directory with some entries -/
def inputsIn (path : String) : List (String × Entry) → List FoundFile
  | [] => []
  | (name, e) :: es => inputs (Path.join path name) e ++ inputsIn path es

end

/-- the sources and documents that are themselves in a directory with some entries -/
def inputsDirectlyIn (path : String) (entries : List (String × Entry)) : List FoundFile :=
  entries.filterMap fun
    | (name, .file bytes) =>
      if Path.isInput (Path.join path name) then some ⟨Path.join path name, bytes⟩ else none
    | (_, .directory _) => none

/-! ## Building a tree -/

/-- the entries with the one of a name changed -/
def alter (name : String) (change : Option Entry → Entry) :
    List (String × Entry) → List (String × Entry)
  | [] => [(name, change none)]
  | (n, e) :: es => if n = name then (n, change (some e)) :: es else (n, e) :: alter name change es

/-- the tree with something at a path; the directories on the way are made -/
def put (new : Option Entry → Entry) : List String → Option Entry → Entry
  | [], e => new e
  | name :: path, some (.directory es) => .directory (alter name (put new path) es)
  | name :: path, _ => .directory (alter name (put new path) [])

end Entry

/-! ## Looking up paths -/

/-- A place in a tree: a directory or file, and the directories above it, nearest first. -/
structure FileTree where
  here : Entry
  above : List Entry
deriving Inhabited

namespace FileTree

def step (t : FileTree) (part : List Char) : Except AccessError FileTree :=
  match t.here with
  | .file _ => .error .notDirectory
  | .directory entries =>
    if part = ['.'] then .ok t
    else if part = ['.', '.'] then
      match t.above with
      | [] => .ok t
      | e :: es => .ok ⟨e, es⟩
    else
      match entries.find? fun e => e.1.toList == part with
      | some e => .ok ⟨e.2, t.here :: t.above⟩
      | none => .error .missing

def root (t : FileTree) : FileTree := ⟨t.above.getLast?.getD t.here, []⟩

/-- what a path leads to; a path that ends in a slash leads to a directory -/
def look (t : FileTree) (path : String) : Except AccessError Entry :=
  let cs := path.toList
  if cs.contains '\x00' then .error .invalidPath
  else if cs.isEmpty then .error .missing
  else do
    let start := if cs.head? = some '/' then t.root else t
    let place ← (Text.runs (· != '/') cs).foldlM step start
    if cs.getLast? = some '/' && place.here.isFile then .error .notDirectory
    else .ok place.here

end FileTree

end WordRole
