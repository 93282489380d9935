import WordRole.Failure

/-!
# The arguments of an analysis

Flags, a settings file and one target, in any order.  Of several modes or settings files the last
one counts.
-/

namespace WordRole

/-- What an analysis is asked for. -/
structure Arguments where
  target : Option String
  mode : Option Mode
  json : Bool
  verbose : Bool
  config : Option String
deriving DecidableEq, Repr, Inhabited

namespace Arguments

def none : Arguments := ⟨.none, .none, false, false, .none⟩

/-- the flag that asks for a trace, which counts wherever it stands -/
def traceFlag : String := "--debug-trace"

/-- whether an argument can only be a flag -/
def isFlag (arg : String) : Bool := arg.toList.head? = some '-'

/-- the arguments with one more that takes no other with it -/
def add (a : Arguments) (arg : String) : Except Failure Arguments :=
  if arg = "--strict" then .ok { a with mode := some .strict }
  else if arg = "--permissive" then .ok { a with mode := some .permissive }
  else if arg = "--json" then .ok { a with json := true }
  else if arg = "--verbose" then .ok { a with verbose := true }
  else if !isFlag arg && a.target.isNone then .ok { a with target := some arg }
  else .error (.invalidCommand s!"unexpected analyze argument {arg}")

def addAll (a : Arguments) : List String → Except Failure Arguments
  | [] => .ok a
  | arg :: args =>
    if arg = "--config" then
      match args with
      | [] => .error (.invalidCommand "--config expects a file path")
      | path :: args => { a with config := some path }.addAll args
    else
      match a.add arg with
      | .ok a => a.addAll args
      | .error e => .error e

/-- the arguments without the flags that ask for a trace -/
def untraced (args : List String) : List String := args.filter (· != traceFlag)

def parse (args : List String) : Except Failure Arguments := none.addAll args

end Arguments

end WordRole
