import WordRole.Failure
import WordRole.Settings

/-!
# Targets

A target names a file, a directory, or, with `/...` at its end, a directory and all below it.
`Target.files` lists what is to be analysed there, in the order of the paths, and `Target.units`
reads it.  Paths are followed by whoever calls: `Look` says what a path leads to.
-/

namespace WordRole

/-- A way to follow a path.  `deep` tells whether what is below the directories in a directory is
asked for too. -/
abbrev Look (m : Type → Type) := (path : String) → (deep : Bool) → m (Except AccessError Entry)

/-- What is to be analysed. -/
structure Target where
  /-- the path of a file or directory -/
  base : String
  /-- whether what is below its directories belongs to it -/
  deep : Bool
deriving DecidableEq, Repr, Inhabited

namespace Target

/-- the mark at the end of a deep target -/
def deepMark : List Char := ['/', '.', '.', '.']

/-- the target that a text names; the mark alone stands for where we are -/
def ofText (text : String) : Target :=
  let cs := text.toList
  if deepMark.isSuffixOf cs then
    let base := cs.take (cs.length - deepMark.length)
    ⟨if base.isEmpty then "." else String.ofList base, true⟩
  else ⟨text, false⟩

/-- The files of a target that leads to an entry.  A file that is named is taken as it is. -/
def files (t : Target) : Entry → List FoundFile
  | .file bytes => [⟨t.base, bytes⟩]
  | .directory entries =>
    let found :=
      if t.deep then Entry.inputsIn t.base entries else Entry.inputsDirectlyIn t.base entries
    found.mergeSort fun f g => Path.inOrder f.path g.path

/-- the files of a target, of which there must be one at least -/
def files? (t : Target) (found : Except AccessError Entry) : Option (List FoundFile) :=
  match found with
  | .error _ => none
  | .ok e => if (t.files e).isEmpty then none else some (t.files e)

end Target

/-! ## Reading units -/

/-- the unit of a file, which is named by its path -/
def FoundFile.unit (f : FoundFile) : Except Failure CodeUnit := do
  let text ← (Entry.file f.bytes).text.mapError .access
  if Path.isDocument f.path then (CodeUnit.ofDocument f.path text).mapError .document
  else pure (.ofSource f.path text)

variable {m : Type → Type} [Monad m]

def CodeUnit.load (look : Look m) (path : String) : ExceptT Failure m CodeUnit := do
  match ← look path false with
  | .ok (.file bytes) => ExceptT.mk (pure (FoundFile.unit ⟨path, bytes⟩))
  | .ok (.directory _) => throw (.access .isDirectory)
  | .error e => throw (.access e)

def Target.expand (look : Look m) (text : String) : ExceptT Failure m (List FoundFile) := do
  let t := Target.ofText text
  match t.files? (← look t.base t.deep) with
  | some files => pure files
  | none => throw (.invalidPath text)

/-- the units of the target that a text names; the first that cannot be read is told -/
def Target.units (look : Look m) (text : String) : ExceptT Failure m (List CodeUnit) := do
  ExceptT.mk (pure ((← Target.expand look text).mapM (·.unit)))

/-! ## Reading settings -/

def Settings.load (look : Look m) (path : String) : ExceptT Failure m Settings := do
  match (← look path false) >>= Entry.text with
  | .error e => throw (.access e)
  | .ok text =>
    match Settings.parse? text with
    | some s => pure s
    | none => throw (.settings path)

/-- the path of the settings file of a directory, if it has one -/
def Settings.find? (look : Look m) (directory : String) : m (Option String) := do
  let path := Path.join directory Settings.fileName
  match ← look path false with
  | .ok (.file _) => pure (some path)
  | _ => pure none

end WordRole
