import WordRole.Mode
import WordRole.Toml.Parsed

/-!
# Settings

What a settings file may say: the mode of the analysis, and the form and fullness of the output.
What it does not say has a default, and what it says besides is left alone.
-/

namespace WordRole

inductive OutputFormat where
  | text
  | json
deriving DecidableEq, Repr, Inhabited

namespace OutputFormat

def all : List OutputFormat := [text, json]

def word : OutputFormat → String
  | text => "text"
  | json => "json"

def ofWord? (w : String) : Option OutputFormat := all.find? fun f => f.word == w

theorem ofWord?_word (f : OutputFormat) : ofWord? f.word = some f := by cases f <;> decide

end OutputFormat

structure Settings where
  mode : Mode
  format : OutputFormat
  /-- whether accepted classifications are printed too -/
  verbose : Bool
deriving DecidableEq, Repr, Inhabited

namespace Settings

def fileName : String := "bareword.toml"

def default : Settings := ⟨.permissive, .text, false⟩

/-- The values of named fields, from a table or from an array in order.  A time has no fields. -/
def fields? (names : List String) : Toml → Option (List (Option Toml))
  | .table _ es => some (names.map (Toml.Entries.get? es))
  | .array items => some ((List.range names.length).map fun i => items[i]?)
  | .tables before last =>
    let elements := (before ++ [last]).map (Toml.table .header)
    some ((List.range names.length).map fun i => elements[i]?)
  | .datetime => some (names.map fun _ => none)
  | _ => none

/-- a word for one of several things: a string, or a table with that name and nothing in it -/
def word? : Toml → Option String
  | .string s => some s
  | .table _ [(name, .table _ [])] => some name
  | .table _ [(name, .array [])] => some name
  | _ => none

def boolean? : Toml → Option Bool
  | .boolean b => some b
  | _ => none

/-- a field, or a default where it is missing -/
def field? {α : Type} (read : Toml → Option α) (default : α) : Option Toml → Option α
  | some v => read v
  | none => some default

def ofEntries? (es : Toml.Entries) : Option Settings := do
  let section? (name : String) (fields : List String) : Option (List (Option Toml)) :=
    match es.get? name with
    | some v => fields? fields v
    | none => some (fields.map fun _ => none)
  match ← section? "analysis" ["mode"], ← section? "output" ["format", "verbose"] with
  | [mode], [format, verbose] =>
    pure ⟨← field? (fun v => (word? v).bind Mode.ofWord?) default.mode mode,
      ← field? (fun v => (word? v).bind OutputFormat.ofWord?) default.format format,
      ← field? boolean? default.verbose verbose⟩
  | _, _ => none

def parse? (s : String) : Option Settings := (Toml.parse? s).bind ofEntries?

end Settings

end WordRole
