import BundlePrep.Message.Argument

/-!
# Reading by byte offsets

The readers of arguments as machines: each stands at a byte offset of the text, looks at the text from
there on, and moves on by the bytes of what it takes. A cut that does not lie between two characters of
the text stops the machine for good, and nothing in the loops of the machines keeps them from going on
forever.
-/

set_option autoImplicit false

namespace BundlePrep.Message.Bytewise

open BundlePrep.Text

/-- What stops a machine: a cut inside a character or behind the end of the text, or a fault. -/
inductive Stop where
  | cut
  | fault (error : LiteralError)
  deriving DecidableEq, Repr

/-- A machine reads a text and stands at an offset of it. One without a result goes on forever. -/
abbrev Machine := ReaderT (List Char) (StateT Nat (ExceptT Stop Option))

section

variable {α β : Type}

/-! ## Loops -/

def rounds {σ : Type} (round : σ → Machine (σ ⊕ α)) : Nat → σ → Machine α
  | 0, _ => fun _ _ => (none : Option _)
  | count + 1, state => do
    match ← round state with
    | .inl state => rounds round count state
    | .inr a => return a

open Classical in
noncomputable def loop {σ : Type} (round : σ → Machine (σ ⊕ α)) (state : σ) : Machine α :=
  fun text start =>
    if h : ∃ count, (rounds round count state text start).isSome = true then
      rounds round h.choose state text start
    else (none : Option _)

def again {σ : Type} (more : σ → Machine α) : σ ⊕ α → Machine α
  | .inl state => more state
  | .inr a => pure a

section

variable {text : List Char} {m : Machine α} {next : α → Machine β} {here : Nat}

theorem bind_of_ok {there : Nat} {a : α} (h : m text here = some (.ok (a, there))) :
    (m >>= next) text here = next a text there := by
  show (m text here).bind _ = _
  rw [h]
  rfl

theorem bind_of_error {stop : Stop} (h : m text here = some (.error stop)) :
    (m >>= next) text here = some (.error stop) := by
  show (m text here).bind _ = _
  rw [h]
  rfl

theorem bind_eq_some_iff {r : Except Stop (β × Nat)} :
    (m >>= next) text here = some r ↔
      (∃ stop, m text here = some (.error stop) ∧ r = .error stop) ∨
        ∃ a there, m text here = some (.ok (a, there)) ∧ next a text there = some r := by
  constructor
  · intro h
    cases first : m text here with
    | none =>
      have none : (m >>= next) text here = none := by
        show (m text here).bind _ = _
        rw [first]
        rfl
      cases none.symm.trans h
    | some result =>
      cases result with
      | error stop => exact .inl ⟨stop, rfl, (Option.some.inj ((bind_of_error first).symm.trans h)).symm⟩
      | ok result => exact .inr ⟨result.1, result.2, rfl, (bind_of_ok first).symm.trans h⟩
  · rintro (⟨stop, first, rfl⟩ | ⟨a, there, first, behind⟩)
    · exact bind_of_error first
    · exact (bind_of_ok first).trans behind

end

section

variable {σ : Type} {round : σ → Machine (σ ⊕ α)} {text : List Char} {start : Nat} {state : σ}
variable {r : Except Stop (α × Nat)}

theorem rounds_succ (round : σ → Machine (σ ⊕ α)) (count : Nat) (state : σ) :
    rounds round (count + 1) state = round state >>= again (rounds round count) := by
  rw [rounds]
  refine bind_congr fun next => ?_
  cases next <;> rfl

theorem rounds_more {count : Nat} (h : rounds round count state text start = some r) (more : Nat) :
    rounds round (count + more) state text start = some r := by
  induction count generalizing state start with
  | zero => cases h
  | succ count ih =>
    rw [rounds_succ, bind_eq_some_iff] at h
    rw [Nat.add_right_comm, rounds_succ, bind_eq_some_iff]
    rcases h with stops | ⟨next, there, first, behind⟩
    · exact .inl stops
    · refine .inr ⟨next, there, first, ?_⟩
      cases next with
      | inl state => exact ih behind
      | inr a => exact behind

theorem loop_of_rounds {count : Nat} (h : rounds round count state text start = some r) :
    loop round state text start = some r := by
  have ends : ∃ count, (rounds round count state text start).isSome = true := ⟨count, by rw [h]; rfl⟩
  rw [loop, dif_pos ends]
  obtain ⟨r', chosen⟩ := Option.isSome_iff_exists.1 ends.choose_spec
  have whole := rounds_more chosen count
  rw [Nat.add_comm, rounds_more h] at whole
  rw [chosen, whole]

theorem exists_rounds (h : loop round state text start = some r) :
    ∃ count, rounds round count state text start = some r := by
  rw [loop] at h
  split at h
  next ends => exact ⟨_, h⟩
  next => cases h

theorem loop_eq (round : σ → Machine (σ ⊕ α)) (state : σ) :
    loop round state = round state >>= again (loop round) := by
  funext text start
  refine Option.ext fun r => ⟨fun h => ?_, fun h => ?_⟩
  · obtain ⟨count, found⟩ := exists_rounds h
    cases count with
    | zero => cases found
    | succ count =>
      rw [rounds_succ, bind_eq_some_iff] at found
      refine bind_eq_some_iff.2 (found.imp_right ?_)
      rintro ⟨next, there, first, behind⟩
      refine ⟨next, there, first, ?_⟩
      cases next with
      | inl state' => exact loop_of_rounds behind
      | inr a => exact behind
  · -- the rounds behind the first, and the first
    obtain ⟨count, found⟩ : ∃ count, rounds round (count + 1) state text start = some r := by
      simp only [rounds_succ, bind_eq_some_iff]
      rcases bind_eq_some_iff.1 h with stops | ⟨state' | a, there, first, behind⟩
      · exact ⟨0, .inl stops⟩
      · obtain ⟨count, found⟩ := exists_rounds behind
        exact ⟨count, .inr ⟨_, there, first, found⟩⟩
      · exact ⟨0, .inr ⟨_, there, first, behind⟩⟩
    exact loop_of_rounds found

end

/-! ## Looking and moving -/

def refuse (error : LiteralError) : Machine α := throw (.fault error)

def uncut : Option α → Machine α
  | some a => return a
  | none => throw .cut

def rest : Machine (List Char) := do
  let parts ← uncut (splitAt? (← get) (← read))
  return parts.2

def peek : Machine (Option Char) := return (← rest).head?

def peekSecond : Machine (Option Char) := return (← rest)[1]?

def move (bytes : Nat) : Machine Unit := modify (· + bytes)

def bump : Machine (Option Char) := do
  let next ← peek
  if let some c := next then move c.utf8Size
  return next

def unexpected : Machine α := do
  match ← peek with
  | some found => refuse (.unexpected found (← get))
  | none => refuse .unexpectedEnd

theorem unexpected_bind (next : α → Machine β) : unexpected >>= next = unexpected := by
  rw [unexpected, bind_assoc]
  refine bind_congr fun c => ?_
  cases c with
  | none => rfl
  | some c =>
    rw [bind_assoc]
    rfl

def offsetOf? (part : List Char) : List Char → Option Nat
  | [] => if part = [] then some 0 else none
  | c :: cs =>
    if part.isPrefixOf (c :: cs) then some 0 else (offsetOf? part cs).map (c.utf8Size + ·)

/-! ## White space and comments -/

noncomputable def skipLine : Machine Unit :=
  loop (fun _ => do
    match ← bump with
    | some c => if c = '\n' then return .inr () else return .inl ()
    | none => return .inr ()) ()

theorem skipLine_eq : skipLine = (do
    match ← bump with
    | some c => if c = '\n' then return else skipLine
    | none => return) := by
  refine (loop_eq _ _).trans ?_
  rw [bind_assoc]
  refine bind_congr fun c => ?_
  cases c with
  | none => rfl
  | some c =>
    dsimp only
    split <;> rfl

def skipBlock : Machine Unit := do
  let start ← get
  move 2
  match offsetOf? ['*', '/'] (← rest) with
  | some stop => move (stop + 2)
  | none => refuse (.unexpected '/' start)

noncomputable def skipTrivia : Machine Unit :=
  loop (fun _ => do
    match ← peek, ← peekSecond with
    | some c, second =>
      if isWhiteSpace c then
        let _ ← bump
        return .inl ()
      else if c = '/' ∧ second = some '/' then
        skipLine
        return .inl ()
      else if c = '/' ∧ second = some '*' then
        skipBlock
        return .inl ()
      else return .inr ()
    | none, _ => return .inr ()) ()

theorem skipTrivia_eq : skipTrivia = (do
    match ← peek, ← peekSecond with
    | some c, second =>
      if isWhiteSpace c then
        let _ ← bump
        skipTrivia
      else if c = '/' ∧ second = some '/' then
        skipLine
        skipTrivia
      else if c = '/' ∧ second = some '*' then
        skipBlock
        skipTrivia
      else return
    | none, _ => return) := by
  refine (loop_eq _ _).trans ?_
  rw [bind_assoc]
  refine bind_congr fun c => ?_
  rw [bind_assoc]
  refine bind_congr fun second => ?_
  cases c with
  | none => rfl
  | some c =>
    dsimp only
    split
    · rw [bind_assoc]
      rfl
    · split
      · rw [bind_assoc]
        rfl
      · split
        · rw [bind_assoc]
          rfl
        · rfl

noncomputable def expect (expected : Char) : Machine Unit := do
  skipTrivia
  if (← peek) = some expected then
    let _ ← bump
  else unexpected

noncomputable def expectEnd : Machine Unit := do
  skipTrivia
  if (← get) = byteLength (← read) then return else unexpected

/-! ## Escapes -/

def hexDigits (count : Nat) : Machine (Option Nat) := do
  let start ← get
  match slice? (← read) start (start + count) with
  | none => return none
  | some digits =>
    if digits.all fun c => (hexValue? c).isSome then
      move count
      return hexNumber? digits
    else return none

def wordOf? (digits : List Char) : Option Nat :=
  let digits := bracedDigits digits
  if digits.isEmpty then none else (hexNumber? digits).filter (· < 0x100000000)

def unicodeCode : Machine (Option Nat) := do
  if (← peek) = some '{' then
    let _ ← bump
    let inner ← rest
    match offsetOf? ['}'] inner with
    | none => return none
    | some stop =>
      let parts ← uncut (splitAt? stop inner)
      match wordOf? parts.1 with
      | none => return none
      | some code =>
        move (stop + 1)
        return if code ≤ 0x10ffff then some code else none
  else hexDigits 4

def charOf (start code : Nat) : Machine (List Char) :=
  if code.isValidChar then return [Char.ofNat code] else refuse (.invalidEscape start)

def surrogates (start high : Nat) : Machine (List Char) := do
  if (← peek) = some '\\' ∧ (← peekSecond) = some 'u' then
    move 2
    match ← unicodeCode with
    | none => refuse (.invalidEscape start)
    | some low =>
      if 0xdc00 ≤ low ∧ low < 0xe000 then
        charOf start (0x10000 + (high - 0xd800) * 0x400 + (low - 0xdc00))
      else refuse (.invalidEscape start)
  else refuse (.invalidEscape start)

def escape : Machine (List Char) := do
  let start := (← get) - 1
  match ← bump with
  | none => refuse .unexpectedEnd
  | some 'n' => return ['\n']
  | some 'r' => return ['\r']
  | some 't' => return ['\t']
  | some 'b' => return ['\x08']
  | some 'f' => return ['\x0c']
  | some 'v' => return ['\x0b']
  | some '\n' => return []
  | some '\r' =>
    if (← peek) = some '\n' then
      let _ ← bump
    return []
  | some 'x' =>
    match ← hexDigits 2 with
    | some code => charOf start code
    | none => refuse (.invalidEscape start)
  | some 'u' =>
    match ← unicodeCode with
    | some code =>
      if 0xd800 ≤ code ∧ code < 0xdc00 then surrogates start code else charOf start code
    | none => refuse (.invalidEscape start)
  | some '0' =>
    match ← peek with
    | some d => if d.isDigit then refuse (.invalidEscape start) else return ['\x00']
    | none => return ['\x00']
  | some c => if c.isDigit then refuse (.invalidEscape start) else return [c]

/-! ## Texts and values -/

noncomputable def bodyFrom (start : Nat) (quote : Char) : List Char → Machine (List Char) :=
  loop fun out => do
    match ← bump with
    | none => refuse (.unterminated start)
    | some c =>
      if c = quote then return .inr out
      else if c = '\\' then return .inl (out ++ (← escape))
      else if quote = '\x60' ∧ c = '$' ∧ (← peek) = some '{' then refuse (.interpolated start)
      else if quote ≠ '\x60' ∧ (c = '\n' ∨ c = '\r') then refuse (.unterminated start)
      else return .inl (out ++ [c])

theorem bodyFrom_eq (start : Nat) (quote : Char) (out : List Char) : bodyFrom start quote out = (do
    match ← bump with
    | none => refuse (.unterminated start)
    | some c =>
      if c = quote then return out
      else if c = '\\' then bodyFrom start quote (out ++ (← escape))
      else if quote = '\x60' ∧ c = '$' ∧ (← peek) = some '{' then refuse (.interpolated start)
      else if quote ≠ '\x60' ∧ (c = '\n' ∨ c = '\r') then refuse (.unterminated start)
      else bodyFrom start quote (out ++ [c])) := by
  refine (loop_eq _ _).trans ?_
  rw [bind_assoc]
  refine bind_congr fun c => ?_
  cases c with
  | none => rfl
  | some c =>
    dsimp only
    split
    · rfl
    · split
      · rw [bind_assoc]
        rfl
      · rw [bind_assoc]
        refine bind_congr fun next => ?_
        split
        · rfl
        · split <;> rfl

noncomputable def text : Machine (List Char) := do
  let start ← get
  match ← peek with
  | some quote =>
    if isQuote quote then
      let _ ← bump
      bodyFrom start quote []
    else unexpected
  | none => unexpected

noncomputable def nextText : Machine (List Char) := do
  skipTrivia
  text

noncomputable def chainFrom : List Char → Machine (List Char) :=
  loop fun value => do
    skipTrivia
    if (← peek) = some '+' then
      let _ ← bump
      return .inl (value ++ (← nextText))
    else return .inr value

theorem chainFrom_eq (value : List Char) : chainFrom value = (do
    skipTrivia
    if (← peek) = some '+' then
      let _ ← bump
      chainFrom (value ++ (← nextText))
    else return value) := by
  refine (loop_eq _ _).trans ?_
  rw [bind_assoc]
  refine bind_congr fun _ => ?_
  rw [bind_assoc]
  refine bind_congr fun next => ?_
  split
  · rw [bind_assoc]
    refine bind_congr fun _ => ?_
    rw [bind_assoc]
    rfl
  · rfl

noncomputable def value : Machine (List Char) := do chainFrom (← nextText)

/-! ## Lists and objects -/

noncomputable def itemsFrom {σ : Type} (close : Char) (item : σ → Machine σ) : σ → Machine σ :=
  loop fun found => do
    skipTrivia
    if (← peek) = some close then
      let _ ← bump
      return .inr found
    else
      let found ← item found
      skipTrivia
      if (← peek) = some ',' then
        let _ ← bump
        return .inl found
      else if (← peek) = some close then return .inl found
      else unexpected

theorem itemsFrom_eq {τ : Type} (close : Char) (item : τ → Machine τ) (found : τ) :
    itemsFrom close item found = (do
      skipTrivia
      if (← peek) = some close then
        let _ ← bump
        return found
      else
        let found ← item found
        skipTrivia
        if (← peek) = some ',' then
          let _ ← bump
          itemsFrom close item found
        else if (← peek) = some close then itemsFrom close item found
        else unexpected) := by
  refine (loop_eq _ _).trans ?_
  rw [bind_assoc]
  refine bind_congr fun _ => ?_
  rw [bind_assoc]
  refine bind_congr fun next => ?_
  split
  · rw [bind_assoc]
    rfl
  · rw [bind_assoc]
    refine bind_congr fun found => ?_
    rw [bind_assoc]
    refine bind_congr fun _ => ?_
    rw [bind_assoc]
    refine bind_congr fun comma => ?_
    split
    · rw [bind_assoc]
      rfl
    · rw [bind_assoc]
      refine bind_congr fun closing => ?_
      split
      · rfl
      · exact unexpected_bind _

noncomputable def list : Machine (List (List Char)) := do
  expect '['
  itemsFrom ']' (fun items => return items ++ [← value]) []

noncomputable def skipWord : Machine Unit :=
  loop (fun _ => do
    match ← peek with
    | some c =>
      if isWordPart c then
        let _ ← bump
        return .inl ()
      else return .inr ()
    | none => return .inr ()) ()

theorem skipWord_eq : skipWord = (do
    match ← peek with
    | some c =>
      if isWordPart c then
        let _ ← bump
        skipWord
      else return
    | none => return) := by
  refine (loop_eq _ _).trans ?_
  rw [bind_assoc]
  refine bind_congr fun c => ?_
  cases c with
  | none => rfl
  | some c =>
    dsimp only
    split
    · rw [bind_assoc]
      rfl
    · rfl

noncomputable def name : Machine (List Char) := do
  match ← peek with
  | some c =>
    if c = '\x27' ∨ c = '"' then text
    else if isWordStart c then
      let start ← get
      skipWord
      uncut (slice? (← read) start (← get))
    else unexpected
  | none => unexpected

noncomputable def propertyValue : Machine PropertyValue := do
  skipTrivia
  if (← peek) = some '[' then return .list (← list) else return .text (← value)

structure Described where
  key : Option (List Char) := none
  comments : List (List Char) := []

def Described.put (found : Described) (name : List Char) (value : PropertyValue) :
    Machine Described :=
  if name = "key".toList then
    match value with
    | .text key => return { found with key := some key }
    | .list _ => refuse .missingKey
  else if name = "comment".toList then
    match value with
    | .text comment => return { found with comments := [comment] }
    | .list comments => return { found with comments }
  else return found

noncomputable def property (found : Described) : Machine Described := do
  let name ← name
  expect ':'
  found.put name (← propertyValue)

noncomputable def object : Machine Key := do
  expect '{'
  let found ← itemsFrom '}' property {}
  match found.key with
  | some key => return .described (String.ofList key) (found.comments.map String.ofList)
  | none => refuse .missingKey

/-! ## Arguments -/

noncomputable def key : Machine Key := do
  skipTrivia
  if (← peek) = some '{' then object else return .plain (String.ofList (← value))

noncomputable def keyArgument : Machine Key := do
  let key ← key
  expectEnd
  return key

noncomputable def valueArgument : Machine String := do
  let text ← value
  expectEnd
  return String.ofList text

end

/-- What a machine makes of a text, if it comes to an end. -/
def run {α : Type} (machine : Machine α) (text : String) : Option (Except Stop α) :=
  (machine text.toList 0).run.map (Except.map Prod.fst)

end BundlePrep.Message.Bytewise
