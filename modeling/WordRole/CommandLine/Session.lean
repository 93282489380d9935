import WordRole.CommandLine.Arguments
import WordRole.Report.Written
import WordRole.Target

/-!
# What the command line does

A session reads its arguments, looks at files, and comes to a `Result`: what it prints, what it
traces and how it fails.  Nothing is printed by the session itself.
-/

namespace WordRole

/-- What a session starts from. -/
structure Invocation where
  args : List String
  /-- the path of the directory where it starts -/
  directory : String
  /-- whether a trace is asked for before any argument -/
  traced : Bool
deriving DecidableEq, Repr, Inhabited

/-- What a session comes to. -/
structure Result where
  output : String
  /-- the lines of the trace -/
  trace : List String
  failure : Option Failure
deriving DecidableEq, Repr, Inhabited

namespace Result

def printed (text : String) : Result := ⟨text ++ "\n", [], none⟩

def failed (f : Failure) : Result := ⟨"", [], some f⟩

def ofExcept : Except Failure Result → Result
  | .ok r => r
  | .error f => failed f

def exitCode (r : Result) : UInt32 := if r.failure.isSome then 1 else 0

/-- the failure, unless its findings have been printed -/
def unprinted? (r : Result) : Option Failure :=
  r.failure.filter (· ≠ .findings)

end Result

namespace Invocation

def usage : String :=
  "bareword\n\nUSAGE:\n  bareword <COMMAND>\n\nCOMMANDS:\n" ++
    "  analyze [--strict|--permissive] [--json] [--verbose] [--config <file>] [--debug-trace] " ++
    "<path|dir/...>\n  tokens <path>\n\n  -h, --help"

/-- What the analysis of some units comes to. -/
def summarized (units : List CodeUnit) (mode : Mode) (format : OutputFormat)
    (verbose traced : Bool) : Result :=
  let analyzers := units.map (·.analyzed)
  let summary : Summary :=
    ⟨(units.zip analyzers).map fun u => u.2.finish u.1.name mode⟩
  let text :=
    match format with
    | .json => summary.toJson.pretty
    | .text => summary.render verbose
  { output := text ++ "\n"
    trace := if traced then analyzers.flatMap fun a => a.events.map (·.line) else []
    failure := if summary.hasFailures then some .findings else none }

variable {m : Type → Type} [Monad m]

/-- the settings that are named, or those of the directory, or the default -/
def settings (look : Look m) (directory : String) (config : Option String) :
    ExceptT Failure m Settings := do
  match config with
  | some path => Settings.load look path
  | none =>
    match ← ExceptT.lift (Settings.find? look directory) with
    | some path => Settings.load look path
    | none => pure .default

def analyze (look : Look m) (i : Invocation) (args : List String) : ExceptT Failure m Result := do
  let a ← ExceptT.mk (pure (Arguments.parse (Arguments.untraced args)))
  match a.target with
  | none => pure (.printed usage)
  | some target =>
    let s ← settings look i.directory a.config
    let units ← Target.units look target
    pure <| summarized units (a.mode.getD s.mode) (if a.json then .json else s.format)
      (a.verbose || s.verbose) (i.traced || args.contains Arguments.traceFlag)

def tokens (look : Look m) (args : List String) : ExceptT Failure m Result := do
  match args.head? with
  | none => pure (.printed usage)
  | some target =>
    let units ← Target.units look target
    match units.map (·.document.toJson) with
    | [document] => pure (.printed document.pretty)
    | documents => pure (.printed (Json.array documents).pretty)

def run (look : Look m) (i : Invocation) : m Result := do
  match i.args with
  | [] => pure (.printed usage)
  | command :: args =>
    if command = "-h" || command = "--help" then pure (.printed usage)
    else if command = "analyze" then return .ofExcept (← (analyze look i args).run)
    else if command = "tokens" then return .ofExcept (← (tokens look args).run)
    else pure (.failed (.invalidCommand command))

end Invocation

end WordRole
