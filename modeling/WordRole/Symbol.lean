import WordRole.Token

/-!
# Symbols

The operators and marks of the language, longest first, so that the first entry that starts a text
is the longest one (`Symbol.ofPrefix?`).
-/

namespace WordRole.Symbol

/-- Every symbol: those of three characters, of two, and of one. -/
def table : List (List Char) :=
  [['<', '=', '>'], ['*', '*', '='], ['|', '|', '='], ['&', '&', '='], ['/', '/', '='],
   ['<', '<', '='], ['>', '>', '='], ['.', '.', '.'],
   ['=', '>'], ['-', '>'], [':', ':'], ['=', '='], ['!', '='], ['<', '='], ['>', '='], ['&', '&'],
   ['|', '|'], ['/', '/'], ['=', '~'], ['!', '~'], ['+', '+'], ['-', '-'], ['+', '='], ['-', '='],
   ['*', '='], ['/', '='], ['.', '='], ['*', '*'], ['.', '.'], ['<', '<'], ['>', '>'],
   ['{'], ['}'], ['('], [')'], ['['], [']'], [','], [';'], ['.'], [':'], ['='], ['+'], ['-'], ['*'],
   ['/'], ['|'], ['&'], ['!'], ['<'], ['>'], ['?'], ['@'], ['%'], ['~'], ['^'], ['\\'], ['$']]

/-- the longest symbol that a text starts with -/
def ofPrefix? (cs : List Char) : Option (List Char) := table.find? (·.isPrefixOf cs)

def kind (symbol : String) : TokenKind :=
  if ["(", ")", "[", "]", "\x7b", "\x7d"].contains symbol then .delimiter
  else if [",", ";", "::"].contains symbol then .punctuation
  else .operator

theorem isPrefixOf_of_ofPrefix? {cs s : List Char} (h : ofPrefix? cs = some s) :
    s.isPrefixOf cs = true := by
  unfold ofPrefix? at h
  simpa using List.find?_some h

theorem mem_table_of_ofPrefix? {cs s : List Char} (h : ofPrefix? cs = some s) : s ∈ table :=
  List.mem_of_find?_eq_some h

theorem ne_nil_of_mem_table {s : List Char} (h : s ∈ table) : s ≠ [] := by
  rintro rfl; revert h; decide

end WordRole.Symbol
