import BundlePrep.Json.Value
import BundlePrep.Text.Hexadecimal

/-!
# Reading JSON

A whole text is read as one value. Escapes in texts are checked for their form; what they stand for
is decided when a text is decoded, which fails for half a surrogate pair.
-/

set_option autoImplicit false

namespace BundlePrep.Json

export BundlePrep.Text (hexValue?)

open BundlePrep.Text

def isSpace (c : Char) : Bool := c == ' ' || c == '\n' || c == '\t' || c == '\r'

def skipSpace (cs : List Char) : List Char := cs.dropWhile isSpace

/-! ## Texts -/

def unescape? : Char → Option Char
  | '"' => some '"'
  | '\\' => some '\\'
  | '/' => some '/'
  | 'b' => some '\x08'
  | 'f' => some '\x0c'
  | 'n' => some '\n'
  | 'r' => some '\r'
  | 't' => some '\t'
  | _ => none

def readText? : List Char → Option (List Char × List Char)
  | [] => none
  | '"' :: cs => some ([], cs)
  | '\\' :: 'u' :: a :: b :: c :: d :: cs =>
    if (hexNumber? [a, b, c, d]).isNone then none
    else (readText? cs).map fun (more, rest) => ('\\' :: 'u' :: a :: b :: c :: d :: more, rest)
  | '\\' :: c :: cs =>
    if (unescape? c).isNone then none
    else (readText? cs).map fun (more, rest) => ('\\' :: c :: more, rest)
  | c :: cs =>
    if c = '\\' || c.toNat < 0x20 then none
    else (readText? cs).map fun (more, rest) => (c :: more, rest)

def decode? : List Char → Option (List Char)
  | [] => some []
  | '\\' :: 'u' :: a :: b :: c :: d :: cs => do
    let code ← hexNumber? [a, b, c, d]
    if 0xd800 ≤ code ∧ code < 0xdc00 then
      match cs with
      | '\\' :: 'u' :: a :: b :: c :: d :: cs => do
        let low ← hexNumber? [a, b, c, d]
        if 0xdc00 ≤ low ∧ low < 0xe000 then
          (decode? cs).map (Char.ofNat (0x10000 + (code - 0xd800) * 0x400 + (low - 0xdc00)) :: ·)
        else none
      | _ => none
    else if code.isValidChar then (decode? cs).map (Char.ofNat code :: ·)
    else none
  | '\\' :: c :: cs => do
    let c ← unescape? c
    (decode? cs).map (c :: ·)
  | c :: cs => if c = '\\' then none else (decode? cs).map (c :: ·)

/-! ## Numbers -/

def readDigits? (cs : List Char) : Option (List Char × List Char) :=
  let digits := cs.takeWhile Char.isDigit
  if digits.isEmpty then none else some (digits, cs.dropWhile Char.isDigit)

/-- The digits before the point: no zero stands in front of others. -/
def readWhole? (cs : List Char) : Option (List Char × List Char) := do
  let (digits, rest) ← readDigits? cs
  if digits.head? = some '0' ∧ digits.length ≠ 1 then none else return (digits, rest)

def readSign (signs : List Char) : List Char → List Char × List Char
  | c :: cs => if signs.contains c then ([c], cs) else ([], c :: cs)
  | [] => ([], [])

def readFraction? : List Char → Option (List Char × List Char)
  | '.' :: cs => (readDigits? cs).map fun (digits, rest) => ('.' :: digits, rest)
  | cs => some ([], cs)

def readExponent? : List Char → Option (List Char × List Char)
  | c :: cs =>
    if c = 'e' || c = 'E' then
      let (sign, rest) := readSign ['+', '-'] cs
      (readDigits? rest).map fun (digits, rest) => (c :: sign ++ digits, rest)
    else some ([], c :: cs)
  | [] => some ([], [])

def readNumber? (cs : List Char) : Option (List Char × List Char) := do
  let (sign, rest) := readSign ['-'] cs
  let (whole, rest) ← readWhole? rest
  let (fraction, rest) ← readFraction? rest
  let (exponent, rest) ← readExponent? rest
  return (sign ++ whole ++ fraction ++ exponent, rest)

/-! ## Values -/

def readWord? : List Char → List Char → Option (List Char)
  | [], cs => some cs
  | _ :: _, [] => none
  | d :: ds, c :: cs => if d = c then readWord? ds cs else none

mutual
/-- A value behind white space. The fuel bounds the depth of calls; each takes a character. -/
def readValue? : Nat → List Char → Option (Value × List Char)
  | 0, _ => none
  | fuel + 1, cs =>
    match skipSpace cs with
    | 'n' :: cs => (readWord? "ull".toList cs).map fun rest => (.null, rest)
    | 't' :: cs => (readWord? "rue".toList cs).map fun rest => (.boolean true, rest)
    | 'f' :: cs => (readWord? "alse".toList cs).map fun rest => (.boolean false, rest)
    | '"' :: cs => (readText? cs).map fun (written, rest) => (.text written, rest)
    | '[' :: cs =>
      match skipSpace cs with
      | ']' :: rest => some (.list [], rest)
      | cs => (readItems? fuel cs).map fun (items, rest) => (.list items, rest)
    | '{' :: cs =>
      match skipSpace cs with
      | '}' :: rest => some (.object [], rest)
      | cs => (readMembers? fuel cs).map fun (members, rest) => (.object members, rest)
    | cs => (readNumber? cs).map fun (written, rest) => (.number written, rest)

def readItems? : Nat → List Char → Option (List Value × List Char)
  | 0, _ => none
  | fuel + 1, cs => do
    let (item, rest) ← readValue? fuel cs
    match skipSpace rest with
    | ',' :: rest => (readItems? fuel rest).map fun (items, rest) => (item :: items, rest)
    | ']' :: rest => return ([item], rest)
    | _ => none

def readMembers? : Nat → List Char → Option (List (List Char × Value) × List Char)
  | 0, _ => none
  | fuel + 1, cs => do
    match skipSpace cs with
    | '"' :: rest =>
      let (name, rest) ← readText? rest
      match skipSpace rest with
      | ':' :: rest =>
        let (value, rest) ← readValue? fuel rest
        match skipSpace rest with
        | ',' :: rest =>
          (readMembers? fuel rest).map fun (members, rest) => ((name, value) :: members, rest)
        | '}' :: rest => return ([(name, value)], rest)
        | _ => none
      | _ => none
    | _ => none
end

def Value.read? (text : List Char) : Option Value := do
  let (value, rest) ← readValue? (text.length + 1) text
  if (skipSpace rest).isEmpty then return value else none

namespace Value

def text? : Value → Option String
  | .text written => (decode? written).map String.ofList
  | _ => none

def boolean? : Value → Option Bool
  | .boolean value => some value
  | _ => none

def texts? : Value → Option (List String)
  | .list items => items.mapM text?
  | _ => none

/-- The number that digits write, if it fits into a word of 64 bits. -/
def word? : Value → Option Nat
  | .number written =>
    if written.all Char.isDigit then
      let n := written.foldl (fun n c => 10 * n + (c.toNat - 48)) 0
      if n < UInt64.size then some n else none
    else none
  | _ => none

def members? : Value → Option (List (String × Value))
  | .object members => members.mapM fun (name, value) =>
    (decode? name).map fun name => (String.ofList name, value)
  | _ => none

end Value

end BundlePrep.Json
