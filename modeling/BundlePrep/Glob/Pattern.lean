/-!
# Glob patterns

A question mark stands for any character, a star for any text, and two stars, which have to make up
a whole segment, for any number of segments. Brackets hold a set of characters or, behind an
exclamation mark, those that are excluded. All else stands for itself; a slash is no different from
other characters.
-/

set_option autoImplicit false

namespace BundlePrep.Glob

inductive Member where
  | single (c : Char)
  | range (first last : Char)
  deriving DecidableEq, Repr

inductive Token where
  | char (c : Char)
  | anyChar
  | anyText
  | anySegments
  | within (members : List Member)
  | except (members : List Member)
  deriving DecidableEq, Repr

inductive PatternFault where
  | wildcards
  | recursion
  | range
  deriving DecidableEq, Repr

def PatternFault.message : PatternFault → String
  | .wildcards => "wildcards are either regular `*` or recursive `**`"
  | .recursion => "recursive wildcards must form a single path component"
  | .range => "invalid range pattern"

/-- A fault of a pattern, with the number of characters in front of it. -/
structure PatternError where
  position : Nat
  fault : PatternFault
  deriving DecidableEq, Repr

def PatternError.message (e : PatternError) : String :=
  s!"Pattern syntax error near position {e.position}: {e.fault.message}"

structure Pattern where
  tokens : List Token
  deriving DecidableEq, Repr

def membersOf : List Char → List Member
  | first :: '-' :: last :: cs => .range first last :: membersOf cs
  | c :: cs => .single c :: membersOf cs
  | [] => []

/-- The set and what follows its closing bracket, which may not be the first character. -/
def readSet? (cs : List Char) : Option (List Member × List Char) :=
  ((cs.drop 1).findIdx? (· == ']')).map fun length =>
    (membersOf (cs.take (length + 1)), cs.drop (length + 2))

/-- Whether stars have a segment to themselves: what is left behind them, or where the fault is. -/
def readSegments (start : Nat) (before : Option Char) (cs : List Char) :
    Except PatternError (List Char) :=
  if before.any (· ≠ '/') then .error ⟨start - 1, .recursion⟩
  else
    match cs with
    | [] => .ok []
    | '/' :: rest => .ok rest
    | _ :: _ => .error ⟨start + 2, .recursion⟩

/-- Two stars right behind others add nothing, unless those are the first token. -/
def addSegments (before : List Token) : List Token :=
  match before with
  | .anySegments :: _ :: _ => before
  | _ => .anySegments :: before

theorem length_readSet? {cs rest : List Char} {members : List Member}
    (h : readSet? cs = some (members, rest)) : rest.length ≤ cs.length := by
  obtain ⟨length, _, same⟩ := Option.map_eq_some_iff.1 h
  rw [← (Prod.mk.inj same).2]
  simp

theorem length_readSegments {start : Nat} {before : Option Char} {cs rest : List Char}
    (h : readSegments start before cs = .ok rest) : rest.length ≤ cs.length := by
  unfold readSegments at h
  split at h
  · cases h
  · split at h
    · obtain rfl := Except.ok.inj h
      simp
    · obtain rfl := Except.ok.inj h
      simp
    · cases h

def readTokens (position : Nat) (before : Option Char) (tokens : List Token) (cs : List Char) :
    Except PatternError (List Token) :=
  match cs with
  | [] => .ok tokens.reverse
  | '?' :: cs => readTokens (position + 1) (some '?') (.anyChar :: tokens) cs
  | '*' :: '*' :: '*' :: _ => .error ⟨position + 2, .wildcards⟩
  | '*' :: '*' :: cs =>
    match _read : readSegments position before cs with
    | .error e => .error e
    | .ok rest =>
      let length := cs.length - rest.length
      readTokens (position + 2 + length) (some (if length = 0 then '*' else '/'))
        (addSegments tokens) rest
  | '*' :: cs => readTokens (position + 1) (some '*') (.anyText :: tokens) cs
  | '[' :: '!' :: cs =>
    match _read : readSet? cs with
    | none => .error ⟨position, .range⟩
    | some (members, rest) =>
      readTokens (position + 2 + (cs.length - rest.length)) (some ']') (.except members :: tokens)
        rest
  | '[' :: cs =>
    match _read : readSet? cs with
    | none => .error ⟨position, .range⟩
    | some (members, rest) =>
      readTokens (position + 1 + (cs.length - rest.length)) (some ']') (.within members :: tokens)
        rest
  | c :: cs => readTokens (position + 1) (some c) (.char c :: tokens) cs
termination_by cs.length
decreasing_by
  all_goals simp_wf
  · have := length_readSegments _read
    omega
  · have := length_readSet? _read
    omega
  · have := length_readSet? _read
    omega

def Pattern.parse (text : String) : Except PatternError Pattern :=
  (readTokens 0 none [] text.toList).map Pattern.mk

/-! ## Matching -/

def Member.contains (c : Char) : Member → Bool
  | .single d => c == d
  | .range first last => first ≤ c && c ≤ last

def Token.char? : Token → Option Char
  | .char c => some c
  | _ => none

def Token.accepts (c : Char) : Token → Bool
  | .char d => c == d
  | .anyChar => true
  | .within members => members.any (·.contains c)
  | .except members => !members.any (·.contains c)
  | .anyText | .anySegments => false

def anyRest (f : List Char → Bool) : List Char → Bool
  | [] => f []
  | c :: cs => f (c :: cs) || anyRest f cs

/-- Whether the whole text, what follows one of its slashes, or its empty end satisfies a
condition. -/
def anySegment (f : List Char → Bool) (cs : List Char) : Bool :=
  f cs || behindSlash cs || f []
where
  behindSlash : List Char → Bool
    | [] => false
    | c :: cs => c == '/' && f cs || behindSlash cs

def matchTokens : List Token → List Char → Bool
  | [], cs => cs.isEmpty
  | .anyText :: tokens, cs => anyRest (matchTokens tokens) cs
  | .anySegments :: tokens, cs => anySegment (matchTokens tokens) cs
  | _ :: _, [] => false
  | token :: tokens, c :: cs => token.accepts c && matchTokens tokens cs

namespace Pattern

def accepts (p : Pattern) (text : String) : Bool := matchTokens p.tokens text.toList

def isRecursive (p : Pattern) : Bool := p.tokens.contains .anySegments

def literal? (p : Pattern) : Option String :=
  (p.tokens.mapM Token.char?).map String.ofList

end Pattern

/-- Whether a text holds a star or a question mark. One that holds none is a plain path. -/
def hasWildcard (text : String) : Bool := text.toList.contains '*' || text.toList.contains '?'

end BundlePrep.Glob
