import WordRole.Text.Cut
import WordRole.Token

/-!
# Names and variables

A qualified name is one or more names with `::` between them.  A variable is a sigil and a qualified
name, digits, or one of the marks that name a variable of the language.
-/

namespace WordRole.Lexeme

open Text (Cut)

/-- Takes a qualified name, or nothing if none starts here.  A separator belongs to it only when
another name follows. -/
def qualifiedName : List Char → Cut
  | ':' :: ':' :: c :: cs =>
    if isNameStart c then (((qualifiedName cs).cons c).cons ':').cons ':'
    else .nothing (':' :: ':' :: c :: cs)
  | c :: cs => if isNameChar c then (qualifiedName cs).cons c else .nothing (c :: cs)
  | [] => .nothing []

/-- the marks that name a variable of the language after a `$` -/
def variableMarks : List Char := ['!', '@', '/', '\\', ',', ';', '.', '0', '&', '"', '_']

/-- Whether a text starts with a variable.  After a value, `%` and `&` are operators. -/
def startsVariable (afterValue : Bool) : List Char → Bool
  | '$' :: c :: cs =>
    isNameStart c || c.isDigit || c = ':' || (c = '#' && cs.head?.any isNameStart) ||
      variableMarks.contains c
  | '@' :: c :: _ => isNameStart c || c = ':'
  | '%' :: c :: _ => !afterValue && isNameStart c
  | '&' :: c :: _ => !afterValue && isNameStart c
  | _ => false

/-- Takes what follows a sigil. -/
def variableName : List Char → Cut
  | [] => .nothing []
  | c :: cs =>
    if isNameStart c || c = ':' then qualifiedName (c :: cs)
    else if c.isDigit then .span Char.isDigit (c :: cs)
    else ⟨[c], cs⟩

/-- Takes a variable; `$#` asks for the last index of an array. -/
def sigiledName : List Char → Cut
  | '$' :: '#' :: cs => ((variableName cs).cons '#').cons '$'
  | c :: cs => (variableName cs).cons c
  | [] => .nothing []

/-! ### Nothing is lost -/

@[simp] theorem whole_qualifiedName (s : List Char) : (qualifiedName s).whole = s := by
  fun_induction qualifiedName s <;> simp_all

theorem taken_qualifiedName_ne_nil {c : Char} (cs : List Char) (h : isNameChar c = true) :
    (qualifiedName (c :: cs)).taken ≠ [] := by
  have hc : c ≠ ':' := by rintro rfl; revert h; decide
  rw [qualifiedName.eq_def]
  split <;> simp_all

@[simp] theorem whole_variableName (s : List Char) : (variableName s).whole = s := by
  unfold variableName
  split
  · rfl
  · split
    · simp
    · split
      · simp
      · rfl

@[simp] theorem whole_sigiledName (s : List Char) : (sigiledName s).whole = s := by
  unfold sigiledName
  split <;> simp

theorem taken_sigiledName_ne_nil (c : Char) (cs : List Char) :
    (sigiledName (c :: cs)).taken ≠ [] := by
  unfold sigiledName
  split <;> simp_all

end WordRole.Lexeme
