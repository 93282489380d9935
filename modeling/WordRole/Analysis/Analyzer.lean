import WordRole.Analysis.Event
import WordRole.Analysis.Lookahead
import WordRole.Report.Basic
import WordRole.Text.Runs

/-!
# The analyzer of a unit

One pass over the slotted tokens of a unit, with one token of lookahead and one of lookbehind.
`Analyzer.next` goes on to the next classification; a word is judged by the declarations before it,
and what it declares is recorded afterwards.  A comparator that cannot be one stops the pass.
-/

namespace WordRole

/-- The state between two tokens. -/
structure Analyzer where
  tokens : Lookahead SlottedToken
  previous : Option Token
  declared : DeclarationTable
  findings : Findings
  abort : Option InvalidComparator
  /-- what has been done, in order -/
  events : List Event
deriving DecidableEq, Repr, Inhabited

namespace Analyzer

/-- What the pass comes to: a classification or the fault that ends it. -/
abbrev Item := Except InvalidComparator Classification

/-- an analyzer before its first token, with the notices of whoever made the tokens -/
def start (tokens : List SlottedToken) (notices : List Notice) : Analyzer where
  tokens := .ofList tokens
  previous := none
  declared := .empty
  findings := ⟨[], notices⟩
  abort := none
  events := []

def log (a : Analyzer) (e : Event) : Analyzer := { a with events := a.events ++ [e] }

/-- the analyzer after a declaration; a repeated one gives a notice -/
def declare (a : Analyzer) (d : Declaration) : Analyzer :=
  match a.declared.record d with
  | .ok declared => { a with declared }.log (.recorded d)
  | .error r =>
    { a with findings := a.findings.notice [.redeclared r] }.log (.redeclared r)

/-- the analyzer after a ruling on a token; what the token declares is recorded first -/
def add (a : Analyzer) (token : Token) (r : Ruling) : Analyzer :=
  let a := match r.declares with
    | some kind => a.declare ⟨token.name, kind, token.position⟩
    | none => a
  { a with findings := a.findings.add r }.log (.classified r)

def wordsOf (text : String) : List String :=
  (Text.runs isNameChar text.toList).map String.ofList

/-- the constants that a text names, each once, in the order of the text -/
def constantsIn (t : DeclarationTable) (text : String) : List String :=
  ((wordsOf text).filter fun w => (t.kindsOf w).contains .constant).eraseDups

/-- the analyzer after a string, which gives a notice for each constant that it names -/
def scanString (a : Analyzer) (token : Token) : Analyzer :=
  if token.interpolates then
    { a with findings := a.findings.notice <|
        (constantsIn a.declared token.text).map (Notice.constantInString · token.position) }
  else a

/-- the analyzer after a slotted token, with what the token comes to -/
def visit (a : Analyzer) (token : Token) (slot : Slot) (next : Option Token) :
    Option Item × Analyzer :=
  match (Occurrence.mk token slot a.previous next a.declared).classify with
  | .ok (some r) => (some (.ok r.withRewrite), a.add token r)
  | .ok none => (none, a.log (.idle slot token))
  | .error e => (some (.error e), { a with abort := some e }.log (.aborted e))

def step (a : Analyzer) (entry : SlottedToken) (next : Option Token) : Option Item × Analyzer :=
  let (item, b) := match entry.slot with
    | some slot => a.visit entry.token slot next
    | none => (none, a.scanString entry.token)
  (item, { b with previous := some entry.token })

/-! ### A step takes no tokens -/

@[simp] theorem tokens_log (a : Analyzer) (e : Event) : (a.log e).tokens = a.tokens := rfl

@[simp] theorem tokens_declare (a : Analyzer) (d : Declaration) :
    (a.declare d).tokens = a.tokens := by
  unfold declare
  split <;> rfl

@[simp] theorem tokens_add (a : Analyzer) (t : Token) (r : Ruling) :
    (a.add t r).tokens = a.tokens := by
  unfold add
  cases r.declares <;> simp

@[simp] theorem tokens_scanString (a : Analyzer) (token : Token) :
    (a.scanString token).tokens = a.tokens := by
  unfold scanString
  split <;> rfl

@[simp] theorem tokens_visit (a : Analyzer) (token : Token) (slot : Slot) (next : Option Token) :
    (a.visit token slot next).2.tokens = a.tokens := by
  unfold visit
  split <;> simp

@[simp] theorem tokens_step (a : Analyzer) (entry : SlottedToken) (next : Option Token) :
    (a.step entry next).2.tokens = a.tokens := by
  unfold step
  cases entry.slot <;> simp

/-! ### The pass -/

/-- Goes on to the next item.  After the fault there is none. -/
def next (a : Analyzer) : Option Item × Analyzer :=
  if a.abort.isSome then (none, a)
  else match _h : a.tokens.next? with
    | none => (none, a)
    | some (entry, tokens) =>
      match _hs : ({ a with tokens := tokens.peek.2 } : Analyzer).step entry
          (tokens.peek.1.map (·.token)) with
      | (some item, b) => (some item, b)
      | (none, b) => b.next
termination_by a.tokens.size
decreasing_by
  have hb := congrArg (·.2.tokens) _hs
  simp only [tokens_step] at hb
  rw [← hb, Lookahead.size_peek]
  exact Lookahead.size_next? _h

theorem size_next_le (a : Analyzer) : a.next.2.tokens.size ≤ a.tokens.size := by
  fun_induction next a with
  | case1 => exact Nat.le_refl _
  | case2 => exact Nat.le_refl _
  | case3 a _ entry tokens h item b hs =>
    have hb := congrArg (·.2.tokens) hs
    simp only [tokens_step] at hb
    rw [← hb, Lookahead.size_peek]
    exact Nat.le_of_lt (Lookahead.size_next? h)
  | case4 a _ entry tokens h b hs ih =>
    have hb := congrArg (·.2.tokens) hs
    simp only [tokens_step] at hb
    refine Nat.le_trans ih ?_
    rw [← hb, Lookahead.size_peek]
    exact Nat.le_of_lt (Lookahead.size_next? h)

theorem size_next_lt {a b : Analyzer} {item : Item} (h : a.next = (some item, b)) :
    b.tokens.size < a.tokens.size := by
  fun_induction next a with
  | case1 => simp at h
  | case2 => simp at h
  | case3 a _ entry tokens hn item' b' hs =>
    obtain ⟨-, rfl⟩ := Prod.mk.inj h
    have hb := congrArg (·.2.tokens) hs
    simp only [tokens_step] at hb
    rw [← hb, Lookahead.size_peek]
    exact Lookahead.size_next? hn
  | case4 a _ entry tokens hn b' hs ih =>
    have hb := congrArg (·.2.tokens) hs
    simp only [tokens_step] at hb
    refine Nat.lt_trans (ih h) ?_
    rw [← hb, Lookahead.size_peek]
    exact Lookahead.size_next? hn

def take (a : Analyzer) : Nat → List Item × Analyzer
  | 0 => ([], a)
  | n + 1 =>
    match a.next with
    | (some item, b) =>
      let (items, c) := b.take n
      (item :: items, c)
    | (none, b) => ([], b)

/-- the analyzer after its last item -/
def drain (a : Analyzer) : Analyzer :=
  match _h : a.next with
  | (some _, b) => b.drain
  | (none, b) => b
termination_by a.tokens.size
decreasing_by exact size_next_lt _h

/-- the report on what has been found so far -/
def finish (a : Analyzer) (unit : String) (mode : Mode) : Report :=
  a.findings.report unit mode a.abort

def run (a : Analyzer) (unit : String) (mode : Mode) : Report := a.drain.finish unit mode

end Analyzer

end WordRole
