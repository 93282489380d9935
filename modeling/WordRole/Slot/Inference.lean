import WordRole.Slot.Brace

/-!
# Slots from the tokens

One walk over the tokens of a source finds the slot of each from its neighbours and from the braces
that are open.  A brace and a `sort` also promise slots to the tokens that follow; a promise comes
before what the token's own neighbours say, and an earlier promise before a later one.
-/

namespace WordRole

/-- The slots that are promised to the next two tokens. -/
structure Promise where
  next : Option Slot
  afterNext : Option Slot
deriving DecidableEq, Repr, Inhabited

namespace Promise

def none : Promise := ⟨.none, .none⟩

/-- two promises, the first of which comes first -/
def or (p q : Promise) : Promise := ⟨p.next.or q.next, p.afterNext.or q.afterNext⟩

/-- what is left of a promise one token later -/
def later (p : Promise) : Promise := ⟨p.afterNext, .none⟩

/-- The promise to the next token, or, where that one passes a test, to the one after it.  The slot
is found from the token that the promise goes to and those after it. -/
def skipping (skip : Token → Bool) (find : List Token → Option Slot) : List Token → Promise
  | [] => none
  | t :: ts => if skip t then ⟨.none, find ts⟩ else ⟨find (t :: ts), .none⟩

end Promise

/-- What is known between two tokens. -/
structure SlotWalk where
  /-- the tokens before, nearest first -/
  before : List Token
  /-- the braces that are open, innermost first -/
  braces : List Brace
  /-- whether a statement starts here -/
  atStart : Bool
  /-- what the token before has closed, if it is a closing brace -/
  closed : Option Brace
  promise : Promise
deriving DecidableEq, Repr, Inhabited

namespace SlotWalk

def start : SlotWalk := ⟨[], [], true, none, .none⟩

/-- the token at a distance before -/
def back? (w : SlotWalk) (distance : Nat) : Option Token := w.before[distance - 1]?

/-! ## Promises -/

/-- whether a word is followed by an arrow or a namespace separator -/
def isInvoked (next : Option Token) : Bool :=
  next.any fun t => t.isMemberArrow || t.isNamespaceSeparator

/-- the slot of the first token, if it is the key of a subscript -/
def keySlot : List Token → Option Slot
  | [] => none
  | t :: ts => if t.isBareword && !isInvoked ts.head? then some .containerKey else none

/-- what the brace of a subscript promises; a mark may stand before the key -/
def subscriptPromise (rest : List Token) : Promise :=
  .skipping (·.isOperator Token.evaluationMark) keySlot rest

/-- whether a list follows a comparator -/
def startsList (t : Token) : Bool :=
  t.hasSigil ['@', '%'] || t.isDelimiter "(" || Vocabulary.listProducers.contains t.text

/-- the slot of the first token, if it is a comparator: a block, or something before a list -/
def comparatorSlot : List Token → Option Slot
  | [] => none
  | t :: ts =>
    if t.isDelimiter "\x7b" then some .orderingComparator
    else if t.hasSigil ['@', '%'] || (t.isBareword && Vocabulary.isReserved t.text) ||
        t.kind = .delimiter then none
    else if ts.head?.any startsList then some .orderingComparator
    else none

/-- what a `sort` promises; a parenthesis may stand before the comparator -/
def sortPromise (rest : List Token) : Promise :=
  .skipping (·.isDelimiter "(") comparatorSlot rest

/-! ## The slot of a token by its neighbours -/

/-- the token that a variable or a handle is given to, past an opening parenthesis -/
def caller? (w : SlotWalk) (distance : Nat) : Option Token :=
  if (w.back? distance).any (·.isDelimiter "(") then w.back? (distance + 1) else w.back? distance

/-- whether a variable is declared as the handle that a builtin opens -/
def opensHandle (w : SlotWalk) : Bool :=
  (w.back? 1).any (Vocabulary.variableDeclarators.contains ·.text) &&
    (w.caller? 2).any fun t => t.kind = .identifier && Vocabulary.openers.contains t.text

def endsValue (next : Option Token) : Bool :=
  next.all fun t =>
    t.isPunctuation "," || t.isPunctuation ";" || t.isDelimiter ")" || t.isDelimiter "\x7d" ||
      t.isDelimiter "]"

def endsArgument (next : Option Token) : Bool :=
  next.all fun t => t.isPunctuation "," || t.isPunctuation ";" || t.isDelimiter ")"

/-- whether something to print starts with a token -/
def startsPrinted (next : Option Token) : Bool :=
  next.any fun t => t.kind = .stringLiteral || t.kind = .number || t.hasSigil ['$', '@']

/-- whether a word is all of a statement, or a call with arguments, up to a token -/
def endsStatementCall (next : Option Token) : Bool :=
  next.all fun t =>
    t.isPunctuation ";" || t.isDelimiter "\x7d" || t.sigil?.isSome || t.kind = .stringLiteral ||
      t.kind = .number

/-- whether a word is a handle: between angle brackets, or where a builtin takes one -/
def isHandle (w : SlotWalk) (next : Option Token) : Bool :=
  ((w.back? 1).any (·.isOperator "<") && next.any (·.isOperator ">")) ||
    (w.caller? 1).any fun t =>
      t.kind = .identifier &&
        if Vocabulary.printers.contains t.text then startsPrinted next
        else Vocabulary.handleBuiltins.contains t.text && endsArgument next

/-- The slot of a bareword, by the tokens before it, the token after it and the open braces. -/
def barewordSlot (w : SlotWalk) (word : String) (next : Option Token) : Option Slot :=
  let previous := w.back? 1
  let reserved := Vocabulary.isReserved word
  if previous.any (·.isWord "sub") then some .callableDeclaration
  else if previous.any (·.isWord "package") then some .namespaceDeclaration
  else if Token.endUseConstant w.before then some .constantDeclaration
  else if previous.any (·.isMemberArrow) then none
  else if w.braces.head? = some .constantList && next.any (·.isFatComma) then
    some .constantDeclaration
  else if w.atStart && w.braces.isEmpty && Vocabulary.isSpecialBlock word &&
      next.any (·.isDelimiter "\x7b") then some .specialBlock
  else if !reserved && isInvoked next then some .memberAccess
  else if next.any (·.isFatComma) then some .containerKey
  else if reserved then none
  else if w.isHandle next then some .ioHandle
  else if previous.any (·.isFatComma) && endsValue next then some .pairValue
  else if w.atStart && endsStatementCall next then some .statementCall
  else none

/-- the slot of a token by its neighbours -/
def ownSlot (w : SlotWalk) (t : Token) (next : Option Token) : Option Slot :=
  if t.kind ≠ .identifier || t.isWord "sort" then none
  else if t.isScalarVariable then
    if w.opensHandle then some .lexicalHandleDeclaration else none
  else if t.isBareword then w.barewordSlot t.text next
  else none

/-! ## The walk -/

def slot (w : SlotWalk) (t : Token) (rest : List Token) : Option Slot :=
  w.promise.next.or (w.ownSlot t rest.head?)

def after (w : SlotWalk) (t : Token) (rest : List Token) : SlotWalk :=
  let w' := { w with before := t :: w.before, promise := w.promise.later }
  if t.isDelimiter "\x7b" then
    let brace := Brace.opened w.before w.closed
    { w' with
      braces := brace :: w.braces
      atStart := brace = .block
      closed := none
      promise :=
        if brace = .subscript then w'.promise.or (subscriptPromise rest) else w'.promise }
  else if t.isDelimiter "\x7d" then
    { w' with
      braces := w.braces.tail
      atStart := w.braces.head? = some .block
      closed := w.braces.head? }
  else
    { w' with
      atStart := t.isPunctuation ";"
      closed := none
      promise := if t.isWord "sort" then w'.promise.or (sortPromise rest) else w'.promise }

def slots (w : SlotWalk) : List Token → List (Option Slot)
  | [] => []
  | t :: ts => w.slot t ts :: (w.after t ts).slots ts

theorem length_slots (w : SlotWalk) (ts : List Token) : (w.slots ts).length = ts.length := by
  induction ts generalizing w with
  | nil => rfl
  | cons t ts ih => simp [slots, ih]

end SlotWalk

def Slot.infer (ts : List Token) : List (Option Slot) := SlotWalk.start.slots ts

/-- the tokens of a source with their slots -/
def SlottedToken.infer (ts : List Token) : List SlottedToken :=
  ts.zipWith SlottedToken.mk (Slot.infer ts)

theorem SlottedToken.map_token_infer (ts : List Token) :
    (SlottedToken.infer ts).map (·.token) = ts := by
  have h : ∀ (us : List Token) (ss : List (Option Slot)), ss.length = us.length →
      (us.zipWith SlottedToken.mk ss).map (·.token) = us := by
    intro us
    induction us with
    | nil => simp
    | cons u us ih =>
      intro ss hs
      cases ss with
      | nil => simp at hs
      | cons s ss => simp [ih ss (by simpa using hs)]
  exact h ts _ (SlotWalk.length_slots _ ts)

end WordRole
