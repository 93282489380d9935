import WordRole.CommandLine.Session

/-!
# The program

Looks at files, and prints what a session comes to.
-/

namespace WordRole

/-- the error of the session that an error of the system is -/
def AccessError.ofSystem : IO.Error → AccessError
  | .noFileOrDirectory .. => .missing
  | .inappropriateType .. => .notDirectory
  | .permissionDenied .. => .denied
  | e => .other (toString e)

/-- What is found in a directory under a name.  Only files that can be analysed are read. -/
partial def Entry.found (deep : Bool) (d : IO.FS.DirEntry) : IO (String × Entry) := do
  if ← d.path.isDir then
    let entries ← if deep then (← d.path.readDir).toList.mapM (found deep) else pure []
    return (d.fileName, .directory entries)
  else if Path.isInput d.fileName then
    return (d.fileName, .file (← IO.FS.readBinFile d.path))
  else return (d.fileName, .file .empty)

def lookAt : Look IO := fun path deep => do
  try
    let place ← IO.FS.realPath path
    if ← place.isDir then
      let entries ← (← place.readDir).toList.mapM (Entry.found deep)
      return .ok (.directory entries)
    else return .ok (.file (← IO.FS.readBinFile path))
  catch e => return .error (.ofSystem e)

end WordRole

open WordRole

/-- Runs a session and prints what it comes to. -/
def main (args : List String) : IO UInt32 := do
  let traced := (← IO.getEnv "BAREWORD_DEBUG_TRACE") == some "1"
  let result ← Invocation.run lookAt ⟨args, toString (← IO.currentDir), traced⟩
  for line in result.trace do
    IO.eprintln line
  IO.print result.output
  if let some failure := result.unprinted? then
    IO.eprintln failure.message
  return result.exitCode
