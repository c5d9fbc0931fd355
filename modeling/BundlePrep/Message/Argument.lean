import BundlePrep.Message.Literal

/-!
# Reading keys and messages

Texts, chains of them, lists and objects. Each reader leaves less text than it was given, which is
why the repetitions end.
-/

set_option autoImplicit false

namespace BundlePrep.Message

open BundlePrep.Text

/-! ## Texts -/

/-- The body of a text up to its closing quote; `start` is the text from the opening one on. -/
def readBody (quote : Char) (start : List Char) : List Char → Except Fault (Reading (List Char))
  | [] => .error (.unterminated start)
  | c :: cs =>
    if c = quote then .ok ([], cs)
    else if c = '\\' then
      match _h : readEscape cs with
      | none => .error (if cs = [] then .unexpected [] else .invalidEscape (c :: cs))
      | some (out, rest) => (readBody quote start rest).map fun (more, rest) => (out ++ more, rest)
    else if quote = '\x60' ∧ c = '$' ∧ cs.head? = some '{' then .error (.interpolated start)
    else if quote ≠ '\x60' ∧ (c = '\n' ∨ c = '\r') then .error (.unterminated start)
    else (readBody quote start cs).map fun (more, rest) => (c :: more, rest)
termination_by cs => cs.length
decreasing_by
  · have := length_readEscape _h
    simp only [List.length_cons]
    omega
  · simp

theorem length_readBody {quote : Char} {start cs out rest : List Char}
    (h : readBody quote start cs = .ok (out, rest)) : rest.length < cs.length := by
  fun_induction readBody quote start cs generalizing out rest with
  | case1 => cases h
  | case2 =>
    obtain ⟨_, rfl⟩ := Prod.mk.inj (Except.ok.inj h)
    simp
  | case3 => cases h
  | case4 cs out' rest' esc _ ih =>
    cases found : readBody quote start rest' with
    | error e => simp [found, Except.map] at h
    | ok more =>
      have first := length_readEscape esc
      have second := ih found
      simp only [found, Except.map, Except.ok.injEq, Prod.mk.injEq] at h
      simp only [List.length_cons, ← h.2]
      omega
  | case5 => cases h
  | case6 => cases h
  | case7 c cs _ _ _ _ ih =>
    cases found : readBody quote start cs with
    | error e => simp [found, Except.map] at h
    | ok more =>
      have := ih found
      simp only [found, Except.map, Except.ok.injEq, Prod.mk.injEq] at h
      simp only [List.length_cons, ← h.2]
      omega

def isQuote (c : Char) : Bool := c == '\x27' || c == '"' || c == '\x60'

def readText : List Char → Except Fault (Reading (List Char))
  | [] => .error (.unexpected [])
  | c :: cs => if isQuote c then readBody c (c :: cs) cs else .error (.unexpected (c :: cs))

theorem length_readText {cs out rest : List Char} (h : readText cs = .ok (out, rest)) :
    rest.length < cs.length := by
  unfold readText at h
  split at h
  · simp at h
  · split at h
    · have := length_readBody h
      simp only [List.length_cons]
      omega
    · simp at h

/-! ## Values -/

def readNextText (cs : List Char) : Except Fault (Reading (List Char)) := do readText (← skip cs)

theorem length_readNextText {cs out rest : List Char} (h : readNextText cs = .ok (out, rest)) :
    rest.length < cs.length := by
  unfold readNextText at h
  cases found : skip cs with
  | error e => simp [found, bind, Except.bind] at h
  | ok cs' =>
    simp only [found, bind, Except.bind] at h
    have first := length_skip found
    have second := length_readText h
    omega

/-- The rest of a chain of texts, behind the text `acc` that has been read. -/
def readChain (acc cs : List Char) : Except Fault (Reading (List Char)) :=
  match _skipped : skip cs with
  | .error e => .error e
  | .ok ('+' :: rest) =>
    match _read : readNextText rest with
    | .error e => .error e
    | .ok (more, rest) => readChain (acc ++ more) rest
  | .ok rest => .ok (acc, rest)
termination_by cs.length
decreasing_by
  have first := length_skip _skipped
  have second := length_readNextText _read
  simp only [List.length_cons] at first
  omega

def readValue (cs : List Char) : Except Fault (Reading (List Char)) := do
  let (first, rest) ← readNextText cs
  readChain first rest

theorem length_readChain {acc cs out rest : List Char} (h : readChain acc cs = .ok (out, rest)) :
    rest.length ≤ cs.length := by
  fun_induction readChain acc cs with
  | case1 => cases h
  | case2 => cases h
  | case3 acc cs rest' skipped more rest'' read ih =>
    have first := length_skip skipped
    have second := length_readNextText read
    have third := ih h
    simp only [List.length_cons] at first
    omega
  | case4 acc cs rest' skipped =>
    obtain ⟨_, rfl⟩ := Prod.mk.inj (Except.ok.inj h)
    exact length_skip ‹_›

theorem length_readValue {cs out rest : List Char} (h : readValue cs = .ok (out, rest)) :
    rest.length < cs.length := by
  unfold readValue at h
  cases found : readNextText cs with
  | error e => simp [found, bind, Except.bind] at h
  | ok first =>
    simp only [found, bind, Except.bind] at h
    have first := length_readNextText found
    have second := length_readChain h
    omega

/-! ## Lists and objects -/

def readItems {α : Type} (close : Char) (item : List Char → Except Fault (Reading α))
    (shorter : ∀ {cs rest : List Char} {a : α}, item cs = .ok (a, rest) → rest.length < cs.length)
    (cs : List Char) : Except Fault (Reading (List α)) :=
  match _before : skip cs with
  | .error e => .error e
  | .ok rest =>
    if rest.head? = some close then .ok ([], rest.tail)
    else
      match _read : item rest with
      | .error e => .error e
      | .ok (a, rest) =>
        match _behind : skip rest with
        | .error e => .error e
        | .ok [] => .error (.unexpected [])
        | .ok (c :: rest) =>
          if c = ',' then
            (readItems close item shorter rest).map fun (more, rest) => (a :: more, rest)
          else if c = close then .ok ([a], rest)
          else .error (.unexpected (c :: rest))
termination_by cs.length
decreasing_by
  have first := length_skip _before
  have second := shorter _read
  have third := length_skip _behind
  simp only [List.length_cons] at third
  omega

def readList (cs : List Char) : Except Fault (Reading (List (List Char))) := do
  readItems ']' readValue length_readValue (← expect '[' cs)

theorem length_readItems {α : Type} {close : Char} {item : List Char → Except Fault (Reading α)}
    {shorter : ∀ {cs rest : List Char} {a : α}, item cs = .ok (a, rest) → rest.length < cs.length}
    {cs rest : List Char} {as : List α}
    (h : readItems close item shorter cs = .ok (as, rest)) : rest.length ≤ cs.length := by
  fun_induction readItems close item shorter cs generalizing as rest with
  | case1 => cases h
  | case2 cs rest' before =>
    obtain ⟨_, rfl⟩ := Prod.mk.inj (Except.ok.inj h)
    have first := length_skip before
    simp only [List.length_tail]
    omega
  | case3 => cases h
  | case4 => cases h
  | case5 => cases h
  | case6 cs rest₁ before _ a rest₂ read rest₃ behind ih =>
    cases found : readItems close item shorter rest₃ with
    | error e => simp [found, Except.map] at h
    | ok more =>
      simp only [found, Except.map, Except.ok.injEq, Prod.mk.injEq] at h
      have first := length_skip before
      have second := shorter read
      have third := length_skip behind
      have fourth := ih found
      simp only [List.length_cons] at third
      rw [← h.2]
      omega
  | case7 cs rest₁ before _ a rest₂ read rest₃ behind =>
    obtain ⟨_, rfl⟩ := Prod.mk.inj (Except.ok.inj h)
    have first := length_skip before
    have second := shorter read
    have third := length_skip behind
    simp only [List.length_cons] at third
    omega
  | case8 => cases h

theorem length_expect {expected : Char} {cs rest : List Char} (h : expect expected cs = .ok rest) :
    rest.length < cs.length := by
  unfold expect at h
  cases found : skip cs with
  | error e => simp [found, bind, Except.bind] at h
  | ok cs' =>
    have first := length_skip found
    simp only [found, bind, Except.bind] at h
    split at h
    · split at h
      · obtain rfl := Except.ok.inj h
        simp only [List.length_cons] at first
        omega
      · cases h
    · cases h

theorem length_readList {cs rest : List Char} {values : List (List Char)}
    (h : readList cs = .ok (values, rest)) : rest.length < cs.length := by
  unfold readList at h
  cases found : expect '[' cs with
  | error e => simp [found, bind, Except.bind] at h
  | ok cs' =>
    simp only [found, bind, Except.bind] at h
    have first := length_expect found
    have second := length_readItems h
    omega

inductive PropertyValue where
  | text (value : List Char)
  | list (values : List (List Char))
  deriving DecidableEq, Repr

structure Property where
  name : List Char
  value : PropertyValue
  deriving DecidableEq, Repr

def isWordStart (c : Char) : Bool := isAlphabetic c || c == '_' || c == '$'

def isWordPart (c : Char) : Bool := isAlphabetic c || isNumeric c || c == '_' || c == '$'

def readName : List Char → Except Fault (Reading (List Char))
  | [] => .error (.unexpected [])
  | c :: cs =>
    if c = '\x27' ∨ c = '"' then readBody c (c :: cs) cs
    else if isWordStart c then .ok (c :: cs.takeWhile isWordPart, cs.dropWhile isWordPart)
    else .error (.unexpected (c :: cs))

def readPropertyValue (cs : List Char) : Except Fault (Reading PropertyValue) := do
  let rest ← skip cs
  if rest.head? = some '[' then
    let (values, rest) ← readList rest
    return (.list values, rest)
  else
    let (value, rest) ← readValue rest
    return (.text value, rest)

/-- A list is no key. -/
def Property.isListedKey (p : Property) : Bool :=
  p.name == "key".toList && p.value matches .list _

def readProperty (cs : List Char) : Except Fault (Reading Property) := do
  let (name, rest) ← readName cs
  let (value, rest) ← readPropertyValue (← expect ':' rest)
  if (Property.mk name value).isListedKey then .error .missingKey
  else return (⟨name, value⟩, rest)

theorem length_readName {cs rest name : List Char} (h : readName cs = .ok (name, rest)) :
    rest.length < cs.length := by
  unfold readName at h
  split at h
  · cases h
  · next c cs =>
    split at h
    · have := length_readBody h
      simp only [List.length_cons]
      omega
    · split at h
      · obtain ⟨_, rfl⟩ := Prod.mk.inj (Except.ok.inj h)
        have whole := congrArg List.length
          (List.takeWhile_append_dropWhile (p := isWordPart) (l := cs))
        simp only [List.length_append, List.length_cons] at whole ⊢
        omega
      · cases h

theorem length_readPropertyValue {cs rest : List Char} {value : PropertyValue}
    (h : readPropertyValue cs = .ok (value, rest)) : rest.length < cs.length := by
  unfold readPropertyValue at h
  cases found : skip cs with
  | error e => simp [found, bind, Except.bind] at h
  | ok cs' =>
    have first := length_skip found
    simp only [found, bind, Except.bind] at h
    split at h
    · cases listed : readList cs' with
      | error e => simp [listed] at h
      | ok r =>
        obtain ⟨_, _⟩ := r
        have second := length_readList listed
        simp only [listed, pure, Except.pure, Except.ok.injEq, Prod.mk.injEq] at h
        rw [← h.2]
        omega
    · cases valued : readValue cs' with
      | error e => simp [valued] at h
      | ok r =>
        obtain ⟨_, _⟩ := r
        have second := length_readValue valued
        simp only [valued, pure, Except.pure, Except.ok.injEq, Prod.mk.injEq] at h
        rw [← h.2]
        omega

theorem length_readProperty {cs rest : List Char} {p : Property}
    (h : readProperty cs = .ok (p, rest)) : rest.length < cs.length := by
  unfold readProperty at h
  cases named : readName cs with
  | error e => simp [named, bind, Except.bind] at h
  | ok n =>
    obtain ⟨name, behind⟩ := n
    have first := length_readName named
    simp only [named, bind, Except.bind] at h
    cases found : expect ':' behind with
    | error e => simp [found] at h
    | ok cs' =>
      have second := length_expect found
      simp only [found] at h
      cases valued : readPropertyValue cs' with
      | error e => simp [valued] at h
      | ok v =>
        obtain ⟨_, _⟩ := v
        have third := length_readPropertyValue valued
        simp only [valued] at h
        split at h
        · cases h
        · simp only [pure, Except.pure, Except.ok.injEq, Prod.mk.injEq] at h
          rw [← h.2]
          omega

/-! ## Keys -/

def lastValue? (name : String) (properties : List Property) : Option PropertyValue :=
  (properties.filter (·.name == name.toList)).getLast?.map (·.value)

def PropertyValue.texts : PropertyValue → List String
  | .text value => [String.ofList value]
  | .list values => values.map String.ofList

/-- An object gives a key with comments. Of two properties of a name the later counts. -/
def describedKey (properties : List Property) : Except Fault Key :=
  match lastValue? "key" properties with
  | some (.text key) =>
    .ok (.described (String.ofList key)
      ((lastValue? "comment" properties).elim [] PropertyValue.texts))
  | _ => .error .missingKey

def readObject (cs : List Char) : Except Fault (Reading Key) := do
  let (properties, rest) ← readItems '}' readProperty length_readProperty (← expect '{' cs)
  return (← describedKey properties, rest)

def readKey (cs : List Char) : Except Fault (Reading Key) := do
  let rest ← skip cs
  if rest.head? = some '{' then readObject rest
  else
    let (value, rest) ← readValue rest
    return (.plain (String.ofList value), rest)

def finish {α : Type} (read : α × List Char) : Except Fault α := do
  match ← skip read.2 with
  | [] => return read.1
  | rest => .error (.unexpected rest)

def parseKey (text : String) : Except LiteralError Key :=
  (readKey text.toList >>= finish).mapError (·.locate text.toList)

def parseValue (text : String) : Except LiteralError String :=
  ((readValue text.toList >>= finish).map String.ofList).mapError (·.locate text.toList)

end BundlePrep.Message
