import BundlePrep.Script.TypeGrammar

/-!
# Markup

Elements and fragments between expressions. An element is read up to its closing `>`, which is not
taken: behind a nested element raw text goes on, behind an outermost one tokens do.
-/

set_option autoImplicit false

namespace BundlePrep.Script.Parse

def scanTagWord : List Char → List Char → Nat → List Char × List Char × Nat
  | acc, c :: cs, pos =>
    if Text.isNamePart c || c == '-' then scanTagWord (c :: acc) cs (pos + c.utf8Size)
    else (acc.reverse, c :: cs, pos)
  | acc, [], pos => (acc.reverse, [], pos)

def tagWord : Parse String := do
  let c ← get
  match c.token with
  | .word _ false =>
    let (text, rest, pos) := scanTagWord [] c.here c.span.start
    resume rest pos
    return String.ofList text
  | _ => failure

def attributeName : Parse String := do
  let first ← tagWord
  if ← eat .colon then return first ++ ":" ++ (← tagWord)
  return first

def elementName : Parse String := do
  let first ← tagWord
  if ← eat .colon then return first ++ ":" ++ (← tagWord)
  let path ← many do if ← eat .dot then return some (← tagWord) else return none
  return ".".intercalate (first :: path)

def attributeText (quote : Char) : List Char → Nat → Option (List Char × Nat)
  | c :: cs, pos =>
    if c == quote then some (cs, pos + 1) else attributeText quote cs (pos + c.utf8Size)
  | [], _ => none

def substitution (g : Grammar) : Parse Node := do
  expect .openBrace
  let value ← withIn (g .expression)
  require (← atMark .closeBrace)
  return value

def attributeValue (g : Grammar) : Parse Node := do
  let c ← get
  match c.here with
  | quote :: cs =>
    if quote == '"' || quote == '\x27' then
      let (rest, pos) ← attributeText quote cs (c.span.start + 1)
      resume rest pos
      return .form .literal []
    else if ← atMark .openBrace then
      let value ← substitution g
      advance
      return value
    else
      let value ← g .markup
      expect .greater
      return value
  | [] => failure

def tagAttribute (g : Grammar) : Parse Node := do
  if ← eat .openBrace then
    expect .ellipsis
    let value ← withIn (g .assignment)
    expect .closeBrace
    return value
  let _ ← attributeName
  if ← eat .assign then attributeValue g else return .form .literal []

/-- Raw text up to a brace or a tag; a closing brace or `>` may not stand in it. -/
def scanMarkupText : List Char → Nat → Option (List Char × Nat)
  | [], _ => none
  | c :: cs, pos =>
    if c == '{' || c == '<' then some (c :: cs, pos)
    else if c == '}' || c == '>' then none
    else scanMarkupText cs (pos + c.utf8Size)

def skipMarkupText : Parse Unit := do
  let c ← get
  match scanMarkupText c.rest c.span.stop with
  | some (rest, pos) => resume rest pos
  | none => failure

def enclosedChild (g : Grammar) : Parse Node := do
  expect .openBrace
  if ← atMark .closeBrace then return .form .literal []
  let _ ← eat .ellipsis
  let value ← withIn (g .expression)
  require (← atMark .closeBrace)
  return value

/-- The children of an element: each round starts with a closing mark to be taken, behind which raw
text goes on. -/
def markupChildren (g : Grammar) : Parse (List Node) :=
  many do
    skipMarkupText
    if ← atMark .openBrace then return some (← enclosedChild g)
    if (← ahead).token == .mark .slash then return none
    return some (← g .markup)

def closingTag (name : Option String) : Parse Unit := do
  expect .less
  expect .slash
  match name with
  | none => require (← atMark .greater)
  | some name =>
    require ((← elementName) == name)
    require (← atMark .greater)

def markup (g : Grammar) : Parse Node := do
  expect .less
  if ← atMark .greater then
    let children ← markupChildren g
    closingTag none
    return .form .markup children
  let name ← elementName
  let types ← if (← hasTypes) && (← atMark .less) then typeArguments g else pure []
  let attributes ← many do
    match ← token with
    | .word _ _ | .mark .openBrace => return some (← tagAttribute g)
    | _ => return none
  if ← eat .slash then
    require (← atMark .greater)
    return .form .markup (types ++ attributes)
  require (← atMark .greater)
  let children ← markupChildren g
  closingTag (some name)
  return .form .markup (types ++ attributes ++ children)

end BundlePrep.Script.Parse
