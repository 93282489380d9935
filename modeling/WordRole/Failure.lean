import WordRole.Document
import WordRole.Files.Entry

/-!
# Failures

Why the program ends without success.  A failure has a headline and sometimes a detail; a failure
that only repeats findings which have been printed has no words of its own.
-/

namespace WordRole

/-- Why the program fails. -/
inductive Failure where
  | access (e : AccessError)
  | invalidPath (target : String)
  | invalidCommand (text : String)
  | unknownMode (word : String)
  /-- a settings file that is none -/
  | settings (path : String)
  | document (e : Document.Error)
  /-- findings that have been printed -/
  | findings
deriving DecidableEq, Repr, Inhabited

namespace Failure

/-- the words for a failure, without detail -/
def headline : Failure → String
  | access e => s!"IO error: {e.message}"
  | invalidPath target => s!"Invalid path: {target}"
  | invalidCommand text => s!"Invalid command: {text}"
  | unknownMode word =>
    s!"Config error: unknown mode '{word}' (expected strict or permissive)"
  | settings path => s!"Config error: failed to parse {path}"
  | document e => s!"Token stream error: {e.message}"
  | findings => "Analysis reported failures"

/-- what is wrong with a text that could not be read -/
def detail? : Failure → Option String
  | settings _ => some "expected TOML with the tables analysis and output"
  | document ⟨_, .malformed⟩ => some "expected JSON with a list of tokens"
  | _ => none

def message (f : Failure) : String :=
  match f.detail? with
  | some detail => s!"{f.headline}: {detail}"
  | none => f.headline

end Failure

def Mode.parse (word : String) : Except Failure Mode :=
  match Mode.ofWord? word with
  | some mode => .ok mode
  | none => .error (.unknownMode word)

end WordRole
