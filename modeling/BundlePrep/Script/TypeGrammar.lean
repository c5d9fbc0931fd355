import BundlePrep.Script.Grammar

/-!
# Types

Types hold no code but the expressions of computed keys, which are all that is kept of them.
-/

set_option autoImplicit false

namespace BundlePrep.Script.Parse

def typeOf (parts : List Node) : Node := .form .type parts

def typeArguments (g : Grammar) : Parse (List Node) := do
  expect .less
  let (types, _) ← separated .greater (g .type)
  return types

def typeArguments? (g : Grammar) : Parse (List Node) := do
  if !(← newline) && (← atMark .less) then typeArguments g else return []

inductive TypeParameterKind where
  | ofClass | ofFunction | ofType
  deriving DecidableEq, Repr

def modifier? (words : List String) : Parse (Option String) := do
  if !(← hasTypes) then return none
  match ← token with
  | .word w false =>
    if words.contains w then
      match (← ahead).token with
      | .word _ _ | .text _ | .number | .privateWord _ | .mark .openBracket | .mark .openBrace
      | .mark .star | .mark .ellipsis =>
        advance
        return some w
      | _ => return none
    else return none
  | _ => return none

def modifier (word : String) : Parse Bool := return (← modifier? [word]).isSome

/-- A type parameter with its modifiers: `in` stands before `out`, and each at most once. -/
def typeParameter (g : Grammar) (kind : TypeParameterKind) : Parse Node := do
  let words ← many (modifier? ["const", "in", "out"])
  let variance := words.filter (· != "const")
  require (variance.isEmpty || kind != .ofFunction)
  require ([[], ["in"], ["out"], ["in", "out"]].contains variance)
  require (words.length == variance.length || kind != .ofType)
  typeName
  let bound ← if ← eatWord "extends" then pure [← g .type] else pure []
  let default ← if ← eat .assign then pure [← g .type] else pure []
  return typeOf (bound ++ default)

def typeParameters (g : Grammar) (kind : TypeParameterKind) : Parse (List Node) := do
  expect .less
  let (found, _) ← separated .greater (typeParameter g kind)
  return found

def typeParameters? (g : Grammar) (kind : TypeParameterKind) : Parse (List Node) := do
  if ← hasTypes <&&> atMark .less then typeParameters g kind else return []

def returnType (g : Grammar) : Parse Node := do
  let asserts ← match ← token, (← ahead).token with
    | .word "asserts" false, .word w _ => pure (isSubject w)
    | _, _ => pure false
  if asserts then advance
  let next ← ahead
  let isPredicate ← match ← token, next.token with
    | .word w _, .word "is" false => pure (isSubject w && !next.newline)
    | _, _ => pure false
  if asserts || isPredicate then advance
  if isPredicate then advance
  if asserts && !isPredicate then return typeOf [] else g .type
where
  isSubject (word : String) : Bool := !isReserved word || word == "this"

def ascription? (g : Grammar) : Parse (List Node) := do
  if ← hasTypes <&&> eat .colon then return [← g .type] else return []

def returnAscription? (g : Grammar) : Parse (List Node) := do
  if ← hasTypes <&&> eat .colon then return [← returnType g] else return []

def entityPath : Parse (List String) := do
  let first ← anyWord
  let more ← many do
    if ← eat .dot then return some (← anyWord) else return none
  return first :: more

def entityName : Parse Unit := do let _ ← entityPath

/-- The types that a class or an interface builds on, behind a word; there may be none. A comma may
follow the last of them. -/
def heritage (g : Grammar) (word : String) : Parse (List Node) := do
  if !(← eatWord word) then return []
  let found ← many do
    if ← atMark .openBrace then return none
    entityName
    let types ← typeArguments? g
    let more ← eat .comma
    require (more || (← atMark .openBrace))
    return some types
  return found.flatten

/-! ## Parameters -/

structure Parameter where
  node : Node
  simple : Bool
  isRest : Bool
  isThis : Bool
  hasDefault : Bool
  isProperty : Bool

def decorator (g : Grammar) : Parse Node := do
  expect .at
  if ← eat .openParen then
    let value ← withIn (g .expression)
    expect .closeParen
    return .form .decorator [value]
  return .form .decorator [← g .decorator]

def decorators (g : Grammar) : Parse (List Node) :=
  many do if ← atMark .at then return some (← decorator g) else return none

def accessModifier : Parse Bool := do
  match ← modifier? ["public", "protected", "private", "in", "out"] with
  | some w =>
    require (w != "in" && w != "out")
    return true
  | none => return false

/-- The modifiers that make a parameter of a constructor a property: each at most once and in this
order. -/
def parameterProperty : Parse Bool := do
  let access ← accessModifier
  let override ← modifier "override"
  let readonly ← modifier "readonly"
  return access || override || readonly

def parameter (g : Grammar) (properties : Bool) : Parse Parameter := do
  let marks ← decorators g
  let isProperty ← if properties then parameterProperty else pure false
  require !(isProperty && (← atMark .ellipsis))
  let isRest ← eat .ellipsis
  let isThis ← if ← hasTypes then eatWord "this" else pure false
  let target ← if isThis then pure (Node.name "this") else g .binding
  let optional ← hasTypes <&&> eat .question
  let types ← ascription? g
  let value ← if ← pure !isRest <&&> eat .assign then pure [← withIn (g .assignment)] else pure []
  require !(optional && (isRest || !value.isEmpty))
  let plain := match target with
    | .name _ => true
    | _ => false
  let pattern := match isRest, value with
    | true, _ => Node.form .rest [target]
    | false, [] => target
    | false, _ => .form .withDefault (target :: value)
  require !(isProperty && !plain && value.isEmpty)
  return { node := .form .parameter (marks ++ types ++ [pattern]),
           simple := plain && !isRest && (value.isEmpty || isProperty), isRest, isThis,
           hasDefault := !value.isEmpty, isProperty }

def parameters (g : Grammar) (properties : Bool) : Parse (List Parameter) := do
  expect .openParen
  let (found, trailing) ← separated .closeParen (parameter g properties)
  require !(found.dropLast.any (·.isRest))
  require !(trailing && (found.getLast?.map (·.isRest)).getD false)
  return found

def bareParameters (g : Grammar) : Parse (List Parameter) := do
  let params ← parameters g false
  require !(params.any (·.hasDefault))
  return params

def signature (g : Grammar) : Parse Node := do
  let generic ← typeParameters? g .ofFunction
  let params ← bareParameters g
  let result ← returnAscription? g
  return typeOf (generic ++ params.map (·.node) ++ result)

/-! ## Members of type literals and interfaces -/

def memberEnd : Parse Unit := do
  if ← eat .semicolon then return
  if ← eat .comma then return
  require ((← newline) || (← atMark .closeBrace))

def indexSignatureHead : Parse Unit := do
  expect .openBracket
  let _ ← anyWord
  require ((← atMark .colon) || (← atMark .comma))

def indexSignature (g : Grammar) : Parse Node := do
  expect .openBracket
  let _ ← anyWord
  expect .colon
  let key ← g .type
  expect .closeBracket
  return typeOf (key :: (← ascription? g))

def accessorSignature (g : Grammar) : Parse Node := do
  let reads ← eatWord "get"
  if !reads then expectWord "set"
  let key ← propertyKey g
  let params ← bareParameters g
  require (reads == params.isEmpty)
  let result ← if reads then ascription? g else pure []
  memberEnd
  return typeOf (key.node :: params.map (·.node) ++ result)

def propertySignature (g : Grammar) (readonly : Bool) : Parse Node := do
  let key ← propertyKey g
  let _ ← eat .question
  let isMethod := (← atMark .openParen) || (← atMark .less)
  require !(readonly && isMethod)
  let type ← if isMethod then pure [← signature g] else ascription? g
  memberEnd
  return typeOf (key.node :: type)

def typeMember (g : Grammar) : Parse Node := do
  let next := (← ahead).token
  let isNew := (← atWord "new") && (next == .mark .openParen || next == .mark .less)
  if isNew then advance
  if isNew || (← atMark .openParen) || (← atMark .less) then
    let found ← signature g
    memberEnd
    return found
  let readonly ← modifier "readonly"
  if ← succeeds indexSignatureHead then
    let found ← indexSignature g
    memberEnd
    return found
  if !readonly then
    match ← attempt (accessorSignature g) with
    | some found => return found
    | none => pure ()
  propertySignature g readonly

def typeMembers (g : Grammar) : Parse (List Node) := do
  expect .openBrace
  let found ← many do
    if ← atMark .closeBrace then return none
    return some (← typeMember g)
  expect .closeBrace
  return found

/-! ## Primary types -/

def importType (g : Grammar) : Parse Node := do
  expect .openParen
  let _ ← quoted
  if ← eat .comma then
    if ← atMark .openBrace then let _ ← g .assignment
  expect .closeParen
  let _ ← many do
    if ← eat .dot then
      let _ ← anyWord
      return some ()
    else return none
  return typeOf (← typeArguments? g)

def functionTypeHead (g : Grammar) : Parse Unit := do
  expect .openParen
  if (← atMark .closeParen) || (← atMark .ellipsis) then return
  match ← token with
  | .word _ _ => advance
  | _ => let _ ← g .binding
  match ← token with
  | .mark .colon | .mark .comma | .mark .question | .mark .assign => return
  | .mark .closeParen =>
    advance
    require (← atMark .arrow)
  | _ => failure

def functionType (g : Grammar) : Parse Node := do
  let generic ← typeParameters? g .ofFunction
  let params ← bareParameters g
  expect .arrow
  let result ← returnType g
  return typeOf (generic ++ params.map (·.node) ++ [result])

def mappedModifier (word : Parse Unit) : Parse Unit := do
  if ← eat .plus <||> eat .minus then word
  else let _ ← attempt word

def mappedHead : Parse Unit := do
  expect .openBrace
  mappedModifier (expectWord "readonly")
  expect .openBracket
  let _ ← anyWord
  expectWord "in"

def mappedType (g : Grammar) : Parse Node := do
  mappedHead
  let range ← g .type
  let renamed ← if ← eatWord "as" then pure [← g .type] else pure []
  expect .closeBracket
  mappedModifier (expect .question)
  let type ← ascription? g
  let _ ← eat .semicolon
  expect .closeBrace
  return typeOf (range :: renamed ++ type)

def tupleName : Parse Unit := do
  let _ ← anyWord
  let _ ← eat .question
  expect .colon

def tupleElement (g : Grammar) : Parse Node := do
  let _ ← eat .ellipsis
  if ← succeeds tupleName then tupleName
  let type ← g .type
  let _ ← eat .question
  return type

/-- What may stand behind `this` as a type: a word and the type that it then has. -/
def predicate (g : Grammar) : Parse Node := do
  if ← newline <||> (not <$> eatWord "is") then return typeOf []
  return typeOf [← g .type]

def standsAlone (word : String) : Bool :=
  builtinTypes.contains word || ["void", "null", "true", "false", "undefined"].contains word

def primaryType (g : Grammar) : Parse Node := do
  match ← token with
  | .text _ | .number =>
    advance
    return typeOf []
  | .mark .minus =>
    advance
    require ((← token) == .number)
    advance
    return typeOf []
  | .mark .backquote =>
    let (parts, valid) ← template (g .type)
    require valid
    return typeOf parts
  | .mark .openParen =>
    advance
    let type ← g .type
    expect .closeParen
    return type
  | .mark .openBracket =>
    advance
    let (found, _) ← separated .closeBracket (tupleElement g)
    return typeOf found
  | .mark .openBrace =>
    if ← succeeds mappedHead then mappedType g else return typeOf (← typeMembers g)
  | .word "typeof" false =>
    advance
    if ← eatWord "import" then importType g
    else
      entityName
      return typeOf (← typeArguments? g)
  | .word "import" false =>
    advance
    importType g
  | .word "this" _ =>
    advance
    predicate g
  | .word w _ =>
    let next := (← ahead).token
    if w == "asserts" && next == .word "this" false then
      advance
      advance
      predicate g
    else if standsAlone w && next != .mark .dot then
      advance
      return typeOf []
    else
      require !(isReserved w || w == "let")
      entityName
      return typeOf (← typeArguments? g)
  | _ => failure

def postfixType (g : Grammar) : Parse Node := do
  extend (fun type => do
    if ← newline <||> (not <$> eat .openBracket) then return none
    if ← eat .closeBracket then return some type
    let key ← g .type
    expect .closeBracket
    return some (typeOf [type, key])) (← primaryType g)

def inferredBound (g : Grammar) : Parse Node := do
  expectWord "extends"
  let type ← g .plainType
  require ((← read).inBound || !(← atMark .question))
  return type

def prefixedType (g : Grammar) : Parse Node := do
  let words ← many do
    match ← token with
    | .word w false =>
      if ["keyof", "unique", "readonly"].contains w then
        advance
        return some ()
      else return none
    | _ => return none
  if ← eatWord "infer" then
    typeName
    return typeOf (← attempt (inferredBound g)).toList
  else if words.isEmpty then postfixType g
  else return typeOf [← postfixType g]

def typesBetween (mark : Mark) (operand : Parse Node) : Parse Node := do
  let _ ← eat mark
  let first ← operand
  let more ← many do if ← eat mark then return some (← operand) else return none
  return if more.isEmpty then first else typeOf (first :: more)

def functionType? (g : Grammar) : Parse (Option Node) := do
  if ← atWord "abstract" then
    if (← ahead).token == .word "new" false then
      advance
      advance
      return some (← functionType g)
    return none
  if ← eatWord "new" then return some (← functionType g)
  if ← atMark .less <||> succeeds (functionTypeHead g) then return some (← functionType g)
  return none

def plainType (g : Grammar) : Parse Node := do
  match ← functionType? g with
  | some type => return type
  | none => typesBetween .bar (typesBetween .ampersand (prefixedType g))

def type (g : Grammar) : Parse Node :=
  inMode (fun m => { m with inBound := false }) do
    let tested ← plainType g
    if ← newline <||> (not <$> eatWord "extends") then return tested
    let bound ← inMode (fun m => { m with inBound := true }) (plainType g)
    expect .question
    let yes ← g .type
    expect .colon
    let no ← g .type
    return typeOf [tested, bound, yes, no]

end BundlePrep.Script.Parse
