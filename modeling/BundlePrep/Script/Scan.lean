import BundlePrep.Text.Hexadecimal
import BundlePrep.Text.NameCharacter
import BundlePrep.Script.Token

/-!
# Reading one token

The gap before a token (blanks, line ends and comments) and the token after it, with byte offsets.
Regular expressions, template characters and markup text have readers of their own.
-/

set_option autoImplicit false

namespace BundlePrep.Script

open BundlePrep.Text

def isLineEnd (c : Char) : Bool := c == '\n' || c == '\r' || c == '\u2028' || c == '\u2029'

def isBlank (c : Char) : Bool :=
  c == ' ' || c == '\t' || c == '\x0b' || c == '\x0c' || c == '\xa0' || c == '\ufeff'
    || c == '\u1680' || ('\u2000' ≤ c && c ≤ '\u200a') || c == '\u202f' || c == '\u205f'
    || c == '\u3000'

/-! ## Gaps -/

/-- Where a gap ends, whether a line ends in it, and whether it holds a comment of the markup
kind, which modules do not allow. -/
structure Gap where
  rest : List Char
  stop : Nat
  newline : Bool
  legacy : Bool
  deriving Repr

inductive Inside where
  | code | lineComment | blockComment
  deriving DecidableEq, Repr

/-- Skips blanks and comments; `none` when a block comment does not end. -/
def skipGap (newline legacy : Bool) : Inside → List Char → Nat → Option Gap
  | .blockComment, [], _ => none
  | _, [], pos => some ⟨[], pos, newline, legacy⟩
  | .lineComment, c :: cs, pos =>
    if isLineEnd c then skipGap true legacy .code cs (pos + c.utf8Size)
    else skipGap newline legacy .lineComment cs (pos + c.utf8Size)
  | .blockComment, '*' :: '/' :: cs, pos => skipGap newline legacy .code cs (pos + 2)
  | .blockComment, c :: cs, pos =>
    skipGap (newline || isLineEnd c) legacy .blockComment cs (pos + c.utf8Size)
  | .code, '/' :: '/' :: cs, pos => skipGap newline legacy .lineComment cs (pos + 2)
  | .code, '/' :: '*' :: cs, pos => skipGap newline legacy .blockComment cs (pos + 2)
  | .code, '<' :: '!' :: '-' :: '-' :: cs, pos => skipGap newline true .lineComment cs (pos + 4)
  | .code, '-' :: '-' :: '>' :: cs, pos =>
    if newline then skipGap newline true .lineComment cs (pos + 3)
    else some ⟨'-' :: '-' :: '>' :: cs, pos, newline, legacy⟩
  | .code, c :: cs, pos =>
    if isLineEnd c then skipGap true legacy .code cs (pos + c.utf8Size)
    else if isBlank c then skipGap newline legacy .code cs (pos + c.utf8Size)
    else some ⟨c :: cs, pos, newline, legacy⟩

/-! ## Words -/

inductive Braced where
  | outside
  | opened
  | reading (value : Nat)
  deriving DecidableEq, Repr

structure Word where
  text : List Char
  rest : List Char
  stop : Nat
  escaped : Bool

def wordChar? (first : Bool) (code : Nat) : Option Char :=
  if code.isValidChar then
    let c := Char.ofNat code
    if (if first then isNameStart c else isNamePart c) then some c else none
  else none

/-- Reads a word; `acc` holds its letters so far, last first. -/
def scanWord : Braced → List Char → List Char → Nat → Bool → Option Word
  | .outside, acc, '\\' :: 'u' :: '{' :: cs, pos, _ => scanWord .opened acc cs (pos + 3) true
  | .outside, acc, '\\' :: 'u' :: p :: q :: r :: s :: cs, pos, _ => do
    let c ← wordChar? acc.isEmpty (← hexNumber? [p, q, r, s])
    scanWord .outside (c :: acc) cs (pos + 6) true
  | .outside, _, '\\' :: _, _, _ => none
  | .outside, acc, c :: cs, pos, escaped =>
    if (if acc.isEmpty then isNameStart c else isNamePart c) then
      scanWord .outside (c :: acc) cs (pos + c.utf8Size) escaped
    else some ⟨acc.reverse, c :: cs, pos, escaped⟩
  | .outside, acc, [], pos, escaped => some ⟨acc.reverse, [], pos, escaped⟩
  | .reading value, acc, '}' :: cs, pos, escaped => do
    let c ← wordChar? acc.isEmpty value
    scanWord .outside (c :: acc) cs (pos + 1) escaped
  | .opened, acc, c :: cs, pos, escaped => do
    scanWord (.reading (← hexValue? c)) acc cs (pos + 1) escaped
  | .reading value, acc, c :: cs, pos, escaped => do
    let value := 16 * value + (← hexValue? c)
    if value ≤ 0x10ffff then scanWord (.reading value) acc cs (pos + 1) escaped else none
  | _, _, [], _, _ => none

/-! ## Numbers -/

def digitRun (digit : Char → Bool) : Bool → List Char → Nat → Option (Nat × List Char)
  | afterDigit, '_' :: cs, count =>
    if afterDigit && (cs.head?.map digit).getD false then digitRun digit false cs (count + 1)
    else none
  | _, c :: cs, count =>
    if digit c then digitRun digit true cs (count + 1) else some (count, c :: cs)
  | _, [], count => some (count, [])

def isOctal (c : Char) : Bool := '0' ≤ c && c ≤ '7'

def isOctalNumeral (cs : List Char) : Bool := (cs.takeWhile Char.isDigit).all isOctal

def isBinary (c : Char) : Bool := c == '0' || c == '1'

def isHex (c : Char) : Bool := (hexValue? c).isSome

structure Numeral where
  length : Nat
  rest : List Char
  octal : Bool

def exponentSign : List Char → Nat × List Char
  | '+' :: r => (2, r)
  | '-' :: r => (2, r)
  | r => (1, r)

def scanExponent (length : Nat) : List Char → Option (Nat × List Char)
  | e :: cs =>
    if e == 'e' || e == 'E' then
      let (signed, digits) := exponentSign cs
      match digitRun Char.isDigit false digits 0 with
      | some (0, _) => none
      | some (count, rest) => some (length + signed + count, rest)
      | none => none
    else some (length, e :: cs)
  | [] => some (length, [])

def scanRadix (digit : Char → Bool) (cs : List Char) : Option Numeral := do
  let (count, rest) ← digitRun digit false cs 0
  if count = 0 then none
  match rest with
  | 'n' :: rest => some ⟨count + 3, rest, false⟩
  | rest => some ⟨count + 2, rest, false⟩

def scanFraction (length : Nat) (big octal : Bool) : List Char → Option Numeral
  | '.' :: cs => do
    let (count, rest) ← digitRun Char.isDigit false cs 0
    let (length, rest) ← scanExponent (length + 1 + count) rest
    return ⟨length, rest, octal⟩
  | 'n' :: cs => if big then some ⟨length + 1, cs, octal⟩ else none
  | cs => do
    let (length, rest) ← scanExponent length cs
    return ⟨length, rest, octal⟩

def scanNumeral : List Char → Option Numeral
  | '0' :: 'x' :: cs => scanRadix isHex cs
  | '0' :: 'X' :: cs => scanRadix isHex cs
  | '0' :: 'o' :: cs => scanRadix isOctal cs
  | '0' :: 'O' :: cs => scanRadix isOctal cs
  | '0' :: 'b' :: cs => scanRadix isBinary cs
  | '0' :: 'B' :: cs => scanRadix isBinary cs
  | '0' :: '_' :: _ => none
  | '0' :: d :: cs =>
    if d.isDigit then
      let digits := (d :: cs).takeWhile Char.isDigit
      let rest := (d :: cs).dropWhile Char.isDigit
      if rest.head? = some '_' then none
      else if isOctalNumeral (d :: cs) then some ⟨1 + digits.length, rest, true⟩
      else scanFraction (1 + digits.length) false true rest
    else scanFraction 1 true false (d :: cs)
  | cs => do
    let (count, rest) ← digitRun Char.isDigit false cs 0
    scanFraction count (0 < count) false rest

def endsNumeral : List Char → Bool
  | c :: _ => !(isNameStart c || c.isDigit || c == '\\')
  | [] => true

/-! ## Quoted texts -/

def scanQuoted (quote : Char) : List Char → List Char → Option (List Char × List Char)
  | acc, '\\' :: '\r' :: '\n' :: cs => scanQuoted quote ('\n' :: '\r' :: '\\' :: acc) cs
  | acc, '\\' :: c :: cs => scanQuoted quote (c :: '\\' :: acc) cs
  | acc, c :: cs =>
    if c == quote then some (acc.reverse, cs)
    else if c == '\n' || c == '\r' || c == '\\' then none
    else scanQuoted quote (c :: acc) cs
  | _, [] => none

def bracedNumber? : List Char → Nat → Bool → Option (Nat × List Char)
  | '}' :: cs, value, seen => if seen then some (value, cs) else none
  | c :: cs, value, _ => do
    let value := 16 * value + (← hexValue? c)
    if value ≤ 0x10ffff then bracedNumber? cs value true else none
  | [], _, _ => none

def octalValue : Nat → List Char → Nat → Nat × List Char
  | count + 1, c :: cs, value =>
    if isOctal c && 8 * value + (c.toNat - 48) < 256 then
      octalValue count cs (8 * value + (c.toNat - 48))
    else (value, c :: cs)
  | _, cs, value => (value, cs)

/-- The code points and surrogates that the written characters stand for, and whether an old octal
escape is among them. The first number bounds the steps. -/
def decodeQuoted : Nat → List Char → Option (List Nat × Bool)
  | _, [] => some ([], false)
  | 0, _ => none
  | fuel + 1, '\\' :: c :: cs =>
    let more (codes : List Nat) (octal : Bool) (rest : List Char) : Option (List Nat × Bool) :=
      (decodeQuoted fuel rest).map fun r => (codes ++ r.1, octal || r.2)
    match c, cs with
    | '\r', '\n' :: cs => more [] false cs
    | 'n', cs => more [10] false cs
    | 't', cs => more [9] false cs
    | 'r', cs => more [13] false cs
    | 'b', cs => more [8] false cs
    | 'f', cs => more [12] false cs
    | 'v', cs => more [11] false cs
    | 'x', p :: q :: cs => do more [← hexNumber? [p, q]] false cs
    | 'x', _ => none
    | 'u', '{' :: cs => do
      let (value, cs) ← bracedNumber? cs 0 false
      more [value] false cs
    | 'u', p :: q :: r :: s :: cs => do more [← hexNumber? [p, q, r, s]] false cs
    | 'u', _ => none
    | c, cs =>
      if isLineEnd c then more [] false cs
      else if c == '0' && !(cs.head?.map isOctal).getD false then more [0] false cs
      else if isOctal c then
        let (value, cs) := octalValue 3 (c :: cs) 0
        more [value] true cs
      else more [c.toNat] false cs
  | fuel + 1, c :: cs => (decodeQuoted fuel cs).map fun r => (c.toNat :: r.1, r.2)

def joinSurrogates : List Nat → Option (List Char)
  | [] => some []
  | high :: cs =>
    if 0xd800 ≤ high && high < 0xdc00 then
      match cs with
      | low :: cs =>
        if 0xdc00 ≤ low && low < 0xe000 then
          (joinSurrogates cs).map
            (Char.ofNat (0x10000 + (high - 0xd800) * 0x400 + (low - 0xdc00)) :: ·)
        else none
      | [] => none
    else if 0xdc00 ≤ high && high < 0xe000 then none
    else (joinSurrogates cs).map (Char.ofNat high :: ·)

/-! ## Tokens -/

structure Lexeme where
  token : Token
  stop : Nat
  rest : List Char
  octal : Bool
  deriving Repr

def badLexeme (cs : List Char) (pos : Nat) : Lexeme := ⟨.bad, pos, cs, false⟩

def wordLexeme (wrap : String → Bool → Token) (cs : List Char) (pos : Nat) : Option Lexeme := do
  let w ← scanWord .outside [] cs pos false
  if w.text.isEmpty then none
  return ⟨wrap (String.ofList w.text) w.escaped, w.stop, w.rest, false⟩

def numberLexeme (cs : List Char) (pos : Nat) : Option Lexeme := do
  let n ← scanNumeral cs
  if endsNumeral n.rest then return ⟨.number, pos + n.length, n.rest, n.octal⟩ else none

def byteSize (cs : List Char) : Nat := cs.foldl (fun n c => n + c.utf8Size) 0

def textLexeme (quote : Char) (cs : List Char) (pos : Nat) : Option Lexeme := do
  let (written, rest) ← scanQuoted quote [] cs
  let (codes, octal) ← decodeQuoted written.length written
  let stop := pos + 2 + byteSize written
  return ⟨.text ((joinSurrogates codes).map String.ofList), stop, rest, octal⟩

def markLexeme (cs : List Char) (pos : Nat) : Option Lexeme := do
  let (m, length, rest) ← Mark.scan cs
  return ⟨.mark m, pos + length, rest, false⟩

def lexeme? (cs : List Char) (pos : Nat) : Option Lexeme :=
  match cs with
  | [] => some ⟨.finish, pos, [], false⟩
  | '#' :: r => wordLexeme (fun text _ => .privateWord text) r (pos + 1)
  | '\x27' :: r => textLexeme '\x27' r pos
  | '"' :: r => textLexeme '"' r pos
  | '.' :: d :: _ => if d.isDigit then numberLexeme cs pos else markLexeme cs pos
  | '\\' :: _ => wordLexeme .word cs pos
  | c :: _ =>
    if c.isDigit then numberLexeme cs pos
    else if isNameStart c then wordLexeme .word cs pos
    else markLexeme cs pos

def scanToken (cs : List Char) (pos : Nat) : Lexeme := (lexeme? cs pos).getD (badLexeme cs pos)

/-! ## Regular expressions and templates -/

def scanPattern : Bool → List Char → Nat → Option (List Char × Nat)
  | inClass, '\\' :: c :: cs, pos =>
    if isLineEnd c then none else scanPattern inClass cs (pos + 1 + c.utf8Size)
  | inClass, c :: cs, pos =>
    if isLineEnd c || c == '\\' then none
    else if c == '/' && !inClass then some (cs, pos + 1)
    else scanPattern (c == '[' || (inClass && c != ']')) cs (pos + c.utf8Size)
  | _, [], _ => none

def validFlags (flags : List Char) : Bool :=
  flags.all (fun c => "dgimsuvy".toList.contains c) && decide flags.Nodup

def scanFlags (cs : List Char) (pos : Nat) : Option Word :=
  if (cs.head?.map isNameStart).getD false then scanWord .outside [] cs pos false
  else some ⟨[], cs, pos, false⟩

def scanRegex (cs : List Char) (pos : Nat) : Option (List Char × Nat) := do
  let (rest, pos) ← scanPattern false cs pos
  let w ← scanFlags rest pos
  if validFlags w.text && !w.escaped && endsNumeral w.rest then return (w.rest, w.stop) else none

def validEscape : List Char → Bool
  | '0' :: d :: _ => !isOctal d
  | '0' :: [] => true
  | 'x' :: p :: q :: _ => isHex p && isHex q
  | 'x' :: _ => false
  | 'u' :: '{' :: cs => (bracedNumber? cs 0 false).isSome
  | 'u' :: p :: q :: r :: s :: _ => isHex p && isHex q && isHex r && isHex s
  | 'u' :: _ => false
  | c :: _ => !isOctal c
  | [] => true

structure Stretch where
  rest : List Char
  stop : Nat
  substitution : Bool
  valid : Bool

def scanTemplate : Bool → List Char → Nat → Option Stretch
  | valid, '\x60' :: cs, pos => some ⟨cs, pos + 1, false, valid⟩
  | valid, '$' :: '{' :: cs, pos => some ⟨cs, pos + 2, true, valid⟩
  | valid, '\\' :: c :: cs, pos =>
    scanTemplate (valid && validEscape (c :: cs)) cs (pos + 1 + c.utf8Size)
  | valid, c :: cs, pos => scanTemplate valid cs (pos + c.utf8Size)
  | _, [], _ => none

end BundlePrep.Script
