import BundlePrep.Script.Scan

/-!
# Readers of a grammar

A reader takes tokens from a cursor, or fails. What the code around forbids or allows is in its
mode. Repetition is bounded by the bytes that are left, since each round of a repetition takes a
token.
-/

set_option autoImplicit false

namespace BundlePrep.Script

structure Dialect where
  types : Bool
  markup : Bool
  deriving DecidableEq, Repr

structure Mode where
  dialect : Dialect
  size : Nat
  strict : Bool := false
  /-- Behind an import or export, where the file is known to be a module. -/
  inModule : Bool := false
  inFunction : Bool := false
  async : Bool := false
  generator : Bool := false
  inParameters : Bool := false
  allowIn : Bool := true
  ambient : Bool := false
  inField : Bool := false
  inStaticBlock : Bool := false
  newTarget : Bool := false
  superProperty : Bool := false
  superCall : Bool := false
  breakable : Bool := false
  continuable : Bool := false
  labels : List String := []
  /-- Inside the bound of a conditional type. -/
  inBound : Bool := false
  /-- Where an arrow function may begin. -/
  arrowStart : Option Nat := none
  /-- Inside a branch of a conditional expression, where a colon may end the branch. -/
  inBranch : Bool := false
  /-- Inside the first branch of a conditional expression, which a colon has to end. -/
  colonAhead : Bool := false

/-- The token to be read next, with the text from it on and the text behind it. -/
structure Cursor where
  token : Token
  span : Span
  here : List Char
  rest : List Char
  newline : Bool
  octal : Bool
  lastStop : Nat
  sloppy : Bool
  moduleItem : Bool

def Cursor.seek (rest : List Char) (pos lastStop : Nat) (newline sloppy moduleItem : Bool) :
    Cursor :=
  match skipGap newline false .code rest pos with
  | some gap =>
    let lexeme := scanToken gap.rest gap.stop
    { token := lexeme.token, span := ⟨gap.stop, lexeme.stop⟩, here := gap.rest,
      rest := lexeme.rest, newline := gap.newline, octal := lexeme.octal, lastStop,
      sloppy := sloppy || gap.legacy, moduleItem }
  | none =>
    { token := .bad, span := ⟨pos, pos⟩, here := rest, rest, newline, octal := false, lastStop,
      sloppy, moduleItem }

def Cursor.next (c : Cursor) : Cursor :=
  .seek c.rest c.span.stop c.span.stop false (c.sloppy || c.octal) c.moduleItem

abbrev Parse := ReaderT Mode (StateT Cursor Option)

namespace Parse

variable {α β : Type}

def attempt (p : Parse α) : Parse (Option α) := fun m c =>
  match p m c with
  | some (a, c') => some (some a, c')
  | none => some (none, c)

def succeeds (p : Parse α) : Parse Bool := fun m c => some ((p m c).isSome, c)

def inMode (change : Mode → Mode) (p : Parse α) : Parse α := fun m => p (change m)

def token : Parse Token := return (← get).token

def ahead : Parse Cursor := return (← get).next

def position : Parse Nat := return (← get).span.start

def lastStop : Parse Nat := return (← get).lastStop

def newline : Parse Bool := return (← get).newline

def hasTypes : Parse Bool := return (← read).dialect.types

def require (condition : Bool) : Parse Unit := if condition then pure () else failure

/-- Notes something that strict code forbids. -/
def sloppyOnly : Parse Unit := do
  require !(← read).strict
  modify fun c => { c with sloppy := true }

/-- Refuses what may not stand in code that is known to be strict at this place. -/
def refuseStrict : Parse Unit := do
  let m ← read
  require !(m.strict || m.inModule)

def noteModule : Parse Unit := modify fun c => { c with moduleItem := true }

def advance : Parse Unit := do
  let c ← get
  match c.token with
  | .finish | .bad => failure
  | _ =>
    if c.octal then
      let m ← read
      require !m.strict
      require !(m.dialect.types && c.token == .number && isOctalNumeral c.here)
    set c.next

def resume (rest : List Char) (pos : Nat) : Parse Unit := do
  let c ← get
  set (Cursor.seek rest pos pos false c.sloppy c.moduleItem)

def atMark (m : Mark) : Parse Bool := return (← token) == .mark m

def eat (m : Mark) : Parse Bool := do
  if ← atMark m then
    advance
    return true
  return false

def expect (m : Mark) : Parse Unit := do
  require (← atMark m)
  advance

def atWord (w : String) : Parse Bool := return (← token) == .word w false

def eatWord (w : String) : Parse Bool := do
  if ← atWord w then
    advance
    return true
  return false

def expectWord (w : String) : Parse Unit := do
  require (← atWord w)
  advance

def anyWord : Parse String := do
  match ← token with
  | .word text _ =>
    advance
    return text
  | _ => failure

def atEnd : Parse Bool := return (← token) == .finish

def atStatementEnd : Parse Bool := do
  match ← token with
  | .mark .semicolon | .mark .closeBrace | .finish => return true
  | _ => newline

def semicolon : Parse Unit := do
  if ← eat .semicolon then return
  require (← atStatementEnd)

def rounds : Nat → Parse (Option α) → Parse (List α)
  | 0, _ => failure
  | fuel + 1, step => do
    match ← step with
    | none => return []
    | some a => return a :: (← rounds fuel step)

def bytesLeft : Parse Nat := return (← read).size - (← position)

def many (step : Parse (Option α)) : Parse (List α) := do
  rounds ((← bytesLeft) + 2) step

def stages : Nat → (α → Parse (Option α)) → α → Parse α
  | 0, _, _ => failure
  | fuel + 1, step, a => do
    match ← step a with
    | none => return a
    | some b => stages fuel step b

def extend (step : α → Parse (Option α)) (a : α) : Parse α := do
  stages ((← bytesLeft) + 2) step a

/-- Items up to a closing mark, with a separator after each but perhaps the last; also whether the
last item is followed by one. -/
def separated (close : Mark) (item : Parse α) : Parse (List α × Bool) := do
  let found ← many do
    if ← atMark close then return none
    let a ← item
    if ← eat .comma then return some (a, true)
    require (← atMark close)
    return some (a, false)
  expect close
  return (found.map (·.1), (found.getLast?.map (·.2)).getD false)

end Parse

end BundlePrep.Script
