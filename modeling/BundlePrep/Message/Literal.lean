import BundlePrep.Text.Alphabetic
import BundlePrep.Text.Blank
import BundlePrep.Text.Hexadecimal
import BundlePrep.Text.Offset

/-!
# Constant arguments

The arguments of a localization call are read with a small grammar of their own:

    key    := value | object
    value  := text ('+' text)*
    object := { (property (',' property)* ','?)? }
    property := (word | text) ':' (value | list)
    list   := '[' (value (',' value)* ','?)? ']'

A text is quoted by `'`, `"` or a backquote, and holds no interpolation. White space and comments
may stand between the tokens. A fault names the rest of the text at which it lies, from which its
byte offset follows.
-/

set_option autoImplicit false

namespace BundlePrep.Message

open BundlePrep.Text

/-- A key as written in a call: alone, or with comments for translators. -/
inductive Key where
  | plain (text : String)
  | described (text : String) (comments : List String)
  deriving DecidableEq, Repr

def Key.primary : Key → String
  | .plain text => text
  | .described text _ => text

inductive LiteralError where
  | unexpectedEnd
  | unexpected (found : Char) (offset : Nat)
  | unterminated (offset : Nat)
  | interpolated (offset : Nat)
  | invalidEscape (offset : Nat)
  | missingKey
  deriving DecidableEq, Repr

def LiteralError.message : LiteralError → String
  | .unexpectedEnd => "unexpected end of input"
  | .unexpected found offset => s!"unexpected character `{found}` at offset {offset}"
  | .unterminated offset => s!"unterminated string literal starting at offset {offset}"
  | .interpolated offset => s!"template literal at offset {offset} contains an interpolation"
  | .invalidEscape offset => s!"invalid escape sequence at offset {offset}"
  | .missingKey => "object key has no `key` property"

/-- A fault, with the rest of the text at which it lies. -/
inductive Fault where
  | unexpected (rest : List Char)
  | unterminated (rest : List Char)
  | interpolated (rest : List Char)
  | invalidEscape (rest : List Char)
  | missingKey
  deriving DecidableEq, Repr

def Fault.locate (text : List Char) : Fault → LiteralError
  | .unexpected [] => .unexpectedEnd
  | .unexpected (c :: rest) => .unexpected c (offset (c :: rest))
  | .unterminated rest => .unterminated (offset rest)
  | .interpolated rest => .interpolated (offset rest)
  | .invalidEscape rest => .invalidEscape (offset rest)
  | .missingKey => .missingKey
where
  offset (rest : List Char) : Nat := byteLength text - byteLength rest

abbrev Reading (α : Type) := α × List Char

/-! ## White space and comments -/

inductive Between where
  | tokens
  | lineComment
  | blockComment (start : List Char)
  deriving DecidableEq, Repr

def skipFrom : Between → List Char → Except Fault (List Char)
  | .blockComment start, [] => .error (.unexpected start)
  | _, [] => .ok []
  | .blockComment _, '*' :: '/' :: cs => skipFrom .tokens cs
  | .blockComment start, _ :: cs => skipFrom (.blockComment start) cs
  | .lineComment, c :: cs => skipFrom (if c = '\n' then .tokens else .lineComment) cs
  | .tokens, '/' :: '/' :: cs => skipFrom .lineComment cs
  | .tokens, '/' :: '*' :: cs => skipFrom (.blockComment ('/' :: '*' :: cs)) cs
  | .tokens, c :: cs => if isWhiteSpace c then skipFrom .tokens cs else .ok (c :: cs)

def skip (cs : List Char) : Except Fault (List Char) := skipFrom .tokens cs

theorem length_skipFrom {b : Between} {cs rest : List Char} (h : skipFrom b cs = .ok rest) :
    rest.length ≤ cs.length := by
  fun_induction skipFrom b cs <;> grind

theorem length_skip {cs rest : List Char} (h : skip cs = .ok rest) : rest.length ≤ cs.length :=
  length_skipFrom h

def expect (expected : Char) (cs : List Char) : Except Fault (List Char) := do
  match ← skip cs with
  | c :: rest => if c = expected then .ok rest else .error (.unexpected (c :: rest))
  | [] => .error (.unexpected [])

/-! ## Escapes -/

def readHex (count : Nat) (cs : List Char) : Option (Nat × List Char) :=
  if (cs.take count).length < count then none
  else (hexNumber? (cs.take count)).map fun code => (code, cs.drop count)

/-- The digits of a braced number, in front of which a sign of plus may stand. -/
def bracedDigits : List Char → List Char
  | '+' :: digits => digits
  | digits => digits

def readBraced (cs : List Char) : Option (Nat × List Char) :=
  let digits := bracedDigits (cs.takeWhile (· ≠ '}'))
  match cs.dropWhile (· ≠ '}'), hexNumber? digits with
  | _ :: rest, some code => if digits.isEmpty || 0x10ffff < code then none else some (code, rest)
  | _, _ => none

def readCode : List Char → Option (Nat × List Char)
  | '{' :: cs => readBraced cs
  | cs => readHex 4 cs

/-- A character by its code, or a pair of surrogates of which the first has been read. -/
def readSurrogates (code : Nat) (cs : List Char) : Option (Char × List Char) :=
  if 0xd800 ≤ code ∧ code < 0xdc00 then
    match cs with
    | '\\' :: 'u' :: cs => do
      let (low, rest) ← readCode cs
      if 0xdc00 ≤ low ∧ low < 0xe000 then
        return (Char.ofNat (0x10000 + (code - 0xd800) * 0x400 + (low - 0xdc00)), rest)
      else none
    | _ => none
  else if code.isValidChar then some (Char.ofNat code, cs)
  else none

def readEscape : List Char → Option (List Char × List Char)
  | [] => none
  | 'n' :: cs => some (['\n'], cs)
  | 'r' :: cs => some (['\r'], cs)
  | 't' :: cs => some (['\t'], cs)
  | 'b' :: cs => some (['\x08'], cs)
  | 'f' :: cs => some (['\x0c'], cs)
  | 'v' :: cs => some (['\x0b'], cs)
  | '\n' :: cs => some ([], cs)
  | '\r' :: '\n' :: cs => some ([], cs)
  | '\r' :: cs => some ([], cs)
  | 'x' :: cs => do
    let (code, rest) ← readHex 2 cs
    return ([Char.ofNat code], rest)
  | 'u' :: cs => do
    let (code, rest) ← readCode cs
    let (c, rest) ← readSurrogates code rest
    return ([c], rest)
  | '0' :: d :: cs => if d.isDigit then none else some (['\x00'], d :: cs)
  | '0' :: [] => some (['\x00'], [])
  | c :: cs => if c.isDigit then none else some ([c], cs)

theorem length_readHex {count : Nat} {cs rest : List Char} {code : Nat}
    (h : readHex count cs = some (code, rest)) : rest.length ≤ cs.length := by
  unfold readHex at h
  split at h
  · simp at h
  · obtain ⟨_, _, same⟩ := Option.map_eq_some_iff.1 h
    rw [← (Prod.mk.inj same).2]
    simp

theorem length_readBraced {cs rest : List Char} {code : Nat}
    (h : readBraced cs = some (code, rest)) : rest.length ≤ cs.length := by
  have whole := congrArg List.length (List.takeWhile_append_dropWhile (p := (· ≠ '}')) (l := cs))
  simp only [readBraced] at h
  split at h
  · next _ tail _ eq _ =>
    split at h
    · simp at h
    · obtain ⟨_, rfl⟩ := Prod.mk.inj (Option.some.inj h)
      simp only [List.length_append, eq, List.length_cons] at whole
      omega
  · simp at h

theorem length_readCode {cs rest : List Char} {code : Nat}
    (h : readCode cs = some (code, rest)) : rest.length ≤ cs.length := by
  unfold readCode at h
  split at h
  · have := length_readBraced h
    simp only [List.length_cons]
    omega
  · exact length_readHex h

theorem length_readSurrogates {code : Nat} {cs rest : List Char} {c : Char}
    (h : readSurrogates code cs = some (c, rest)) : rest.length ≤ cs.length := by
  unfold readSurrogates at h
  split at h
  · split at h
    · next inner =>
      cases found : readCode inner with
      | none => simp [found] at h
      | some r =>
        obtain ⟨_, _⟩ := r
        have := length_readCode found
        simp only [found, Option.bind_eq_bind, Option.bind_some] at h
        grind
    · simp at h
  · grind

theorem length_readEscape {cs rest out : List Char} (h : readEscape cs = some (out, rest)) :
    rest.length ≤ cs.length := by
  unfold readEscape at h
  split at h
  case h_11 inner =>
    cases found : readHex 2 inner with
    | none => simp [found] at h
    | some r =>
      obtain ⟨code, behind⟩ := r
      have := length_readHex found
      grind
  case h_12 inner =>
    cases found : readCode inner with
    | none => simp [found] at h
    | some r =>
      obtain ⟨code, behind⟩ := r
      have first := length_readCode found
      cases pair : readSurrogates code behind with
      | none => simp [found, pair] at h
      | some s =>
        obtain ⟨_, _⟩ := s
        have second := length_readSurrogates pair
        grind
  all_goals grind

end BundlePrep.Message
