import WordRole.Text.Runs

/-!
# Paths

A path is a text; its parts are what stands between slashes, where a single dot counts for nothing.
Paths are ordered part by part, so that what is in a directory stays together:

* `inOrder_total`, `inOrder_trans`: any two paths can be put in order, and the order is transitive.
-/

namespace WordRole.Path

def parts (path : String) : List (List Char) :=
  (Text.runs (· != '/') path.toList).filter (· != ['.'])

/-- whether a path comes before another one -/
def isBefore (p q : String) : Bool := parts p < parts q

/-- whether a path may stand before another one: it comes before it, or has the same parts -/
def inOrder (p q : String) : Bool := !isBefore q p

def join (directory name : String) : String :=
  if directory.isEmpty || directory.toList.getLast? = some '/' then directory ++ name
  else directory ++ "/" ++ name

/-- the part of a file name after its last dot, unless the dot is its first character -/
def extensionOf (name : List Char) : Option (List Char) :=
  match name.reverse.dropWhile (· != '.') with
  | '.' :: _ :: _ => some (name.reverse.takeWhile (· != '.')).reverse
  | _ => none

def extension? (path : String) : Option String :=
  match (parts path).getLast? with
  | some name => if name = ['.', '.'] then none else (extensionOf name).map String.ofList
  | none => none

def documentExtension : String := "json"

def sourceExtensions : List String := ["pl", "pm", "t"]

def isDocument (path : String) : Bool := extension? path = some documentExtension

/-- whether a path leads to a source or a token document -/
def isInput (path : String) : Bool :=
  (extension? path).any fun e => e == documentExtension || sourceExtensions.contains e

/-! ### The order of paths -/

theorem inOrder_total (p q : String) : (inOrder p q || inOrder q p) = true := by
  simp only [inOrder, isBefore, Bool.or_eq_true, Bool.not_eq_true', decide_eq_false_iff_not]
  exact List.le_total (parts p) (parts q)

theorem inOrder_trans {p q r : String} (hpq : inOrder p q = true) (hqr : inOrder q r = true) :
    inOrder p r = true := by
  simp only [inOrder, isBefore, Bool.not_eq_true', decide_eq_false_iff_not] at *
  exact List.le_trans hpq hqr

end WordRole.Path
