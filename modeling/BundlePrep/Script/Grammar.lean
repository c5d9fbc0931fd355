import BundlePrep.Script.Parse
import BundlePrep.Script.Tree

/-!
# Goals of the grammar

The recursive parts of the grammar are goals. Every reader of the modules that follow takes the
readers of the goals as an argument, so each of them is an ordinary function; the knot is tied once,
for the whole program.
-/

set_option autoImplicit false

namespace BundlePrep.Script

inductive Goal where
  | expression
  | assignment
  | decorator
  | operation (precedence : Nat)
  | unary
  | leftHand
  | constructed
  | statement (declarations : Bool)
  | item
  | type
  | plainType
  | binding
  | markup
  deriving DecidableEq, Repr

abbrev Grammar := Goal → Parse Node

namespace Parse

def checkIdentifier (word : String) : Parse Unit := do
  let m ← read
  require !isReserved word
  if word == "await" then require !(m.async || m.inModule)
  if word == "yield" then require !m.generator
  if word == "arguments" then require !m.inField
  if word == "let" then sloppyOnly else if isStrictReserved word then refuseStrict

def identifier : Parse String := do
  let word ← anyWord
  checkIdentifier word
  return word

def isRestricted (word : String) : Bool := word == "eval" || word == "arguments"

def bindingName : Parse String := do
  let word ← anyWord
  let m ← read
  require (!isReserved word || (word == "this" && m.dialect.types))
  if word == "await" then require (m.ambient || !(m.async || m.inStaticBlock || m.inModule))
  if word == "yield" then require !m.generator
  if isStrictReserved word || isRestricted word then sloppyOnly
  return word

def typeName : Parse Unit := do let _ ← anyWord

/-- Words that name types everywhere, so that no class or interface has their name. -/
def builtinTypes : List String :=
  ["any", "unknown", "never", "number", "string", "boolean", "symbol", "bigint", "object",
    "intrinsic"]

def privateName : Parse Node := do
  match ← token with
  | .privateWord text =>
    let span := (← get).span
    advance
    return .privateName text span
  | _ => failure

def withIn (p : Parse Node) : Parse Node :=
  inMode (fun m => { m with allowIn := true, inBranch := false, colonAhead := false }) p

def quoted : Parse (Option String) := do
  match ← token with
  | .text value =>
    advance
    return value
  | _ => failure

structure Key where
  node : Node
  word : Option String
  text : Option String

def plainKey (word text : Option String) : Key := ⟨.form .key [], word, text⟩

def propertyKey (g : Grammar) : Parse Key := do
  match ← token with
  | .word text _ =>
    advance
    return plainKey (some text) (some text)
  | .text value =>
    advance
    return plainKey none value
  | .number =>
    advance
    return plainKey none none
  | .mark .openBracket =>
    advance
    let value ← withIn (g .assignment)
    expect .closeBracket
    return ⟨.form .computedKey [value], none, none⟩
  | _ => failure

def arguments (g : Grammar) : Parse (List Node) := do
  expect .openParen
  let (found, _) ← separated .closeParen do
    let spread ← eat .ellipsis
    let start ← position
    let value ← withIn (g .assignment)
    return Node.argument spread ⟨start, ← lastStop⟩ value
  return found

structure TemplateState where
  parts : List Node
  done : Bool
  valid : Bool

def templateStep (inner : Parse Node) (s : TemplateState) : Parse (Option TemplateState) := do
  if s.done then return none
  let c ← get
  match scanTemplate true c.rest c.span.stop with
  | none => failure
  | some stretch =>
    resume stretch.rest stretch.stop
    let valid := s.valid && stretch.valid
    if stretch.substitution then
      let part ← inner
      require (← atMark .closeBrace)
      return some ⟨s.parts ++ [part], false, valid⟩
    else return some ⟨s.parts, true, valid⟩

/-- A template from its opening mark on, with a reader for its substitutions; also whether all
escapes in it are valid. -/
def template (inner : Parse Node) : Parse (List Node × Bool) := do
  require (← atMark .backquote)
  let s ← extend (templateStep inner) ⟨[], false, true⟩
  return (s.parts, s.valid)

end Parse

end BundlePrep.Script
