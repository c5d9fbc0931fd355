import BundlePrep.Script.TypeGrammar

/-!
# Bindings and functions

Binding patterns, the bodies of functions, and functions from their parameters on. A function is a
scope with the names of its parameters, and its body is a scope inside it.
-/

set_option autoImplicit false

namespace BundlePrep.Script.Parse

/-! ## Binding patterns -/

def bindingElement (g : Grammar) : Parse Node := do
  let target ← g .binding
  if ← eat .assign then return .form .withDefault [target, ← withIn (g .assignment)]
  return target

def arrayElement (g : Grammar) : Parse (Node × Bool) := do
  if ← atMark .comma then return (.form .hole [], false)
  if ← eat .ellipsis then return (.form .rest [← g .binding], true)
  return (← bindingElement g, false)

def shorthandBinding (g : Grammar) (word : String) : Parse Node := do
  if ← eat .assign then
    return .form .shorthandDefault [.name word, ← withIn (g .assignment)]
  return .form .shorthand [.name word]

def objectElement (g : Grammar) : Parse (Node × Bool) := do
  if ← eat .ellipsis then return (.form .rest [.name (← bindingName)], true)
  let next := (← ahead).token
  match ← token, next with
  | .word _ _, .mark .colon =>
    let key ← propertyKey g
    advance
    return (.form .patternProperty [key.node, ← bindingElement g], false)
  | .word _ _, _ => return (← shorthandBinding g (← anyWord), false)
  | _, _ =>
    let key ← propertyKey g
    expect .colon
    return (.form .patternProperty [key.node, ← bindingElement g], false)

def patternElements (close : Mark) (element : Parse (Node × Bool)) : Parse (List Node) := do
  let (found, trailing) ← separated close element
  require !(found.dropLast.any (·.2))
  require !(trailing && (found.getLast?.map (·.2)).getD false)
  return found.map (·.1)

def binding (g : Grammar) : Parse Node := do
  match ← token with
  | .mark .openBracket =>
    advance
    return .form .arrayPattern (← patternElements .closeBracket (arrayElement g))
  | .mark .openBrace =>
    advance
    return .form .objectPattern (← patternElements .closeBrace (objectElement g))
  | _ => return .name (← bindingName)

/-! ## Functions -/

structure FunctionKind where
  async : Bool := false
  generator : Bool := false
  /-- Whether `super` names the properties of the class or object around. -/
  method : Bool := false
  /-- Whether it is the constructor of a class that extends another. -/
  derived : Bool := false
  arrow : Bool := false

def FunctionKind.enter (k : FunctionKind) (m : Mode) : Mode :=
  { m with
    inFunction := true, async := k.async, generator := k.generator, allowIn := true,
    inParameters := false, breakable := false, continuable := false, labels := [],
    inField := k.arrow && m.inField, inStaticBlock := false, ambient := false,
    newTarget := !k.arrow || m.newTarget,
    superProperty := k.method || (k.arrow && m.superProperty),
    superCall := k.derived || (k.arrow && m.superCall),
    arrowStart := none, inBranch := false, colonAhead := false }

def FunctionKind.enterParameters (k : FunctionKind) (m : Mode) : Mode :=
  { k.enter m with inParameters := true, inFunction := m.inFunction, ambient := m.ambient }

def atStrictDirective : Parse Bool := do
  let c ← get
  return c.token == .text (some "use strict") && c.span.stop - c.span.start == 12

def prologueAsksStrict : Parse Bool := succeeds do
  let _ ← many do
    if ← atStrictDirective then return none
    let _ ← quoted
    semicolon
    return some ()
  advance
  semicolon

def statementsToBrace (g : Grammar) : Parse (List Node) := do
  let found ← many do
    if ← atMark .closeBrace then return none
    return some (← g (.statement true))
  expect .closeBrace
  return found

def blockBody (g : Grammar) : Parse Node := do
  expect .openBrace
  return .scope false [] (← statementsToBrace g)

/-- The body of a function in braces. Only a function with simple parameters may ask for strict
code; an arrow function may, but is not made strict by it. -/
def functionBody (g : Grammar) (k : FunctionKind) (simple : Bool) : Parse Node :=
  inMode k.enter do
    expect .openBrace
    if !simple then require !(← prologueAsksStrict)
    if !k.arrow && (← atStrictDirective) then
      return .scope false [] (← inMode (fun m => { m with strict := true }) (statementsToBrace g))
    return .scope false [] (← statementsToBrace g)

/-- The body of a function; where types are allowed, it may be left out, and where there are only
declarations, it has to be. -/
def functionBody? (g : Grammar) (k : FunctionKind) (simple : Bool) : Parse (List Node) := do
  if (← hasTypes) && !(← atMark .openBrace) then
    semicolon
    return []
  require !(← read).ambient
  return [← functionBody g k simple]

def functionFrom (g : Grammar) (k : FunctionKind) (properties : Bool) (marks : List Node)
    (check : List Parameter → Bool) : Parse (Node × Bool) := do
  let generic ← typeParameters? g .ofFunction
  let params ← inMode k.enterParameters (parameters g properties)
  require (check params)
  let result ← returnAscription? g
  let body ← functionBody? g k (params.all (·.simple))
  require !(body.isEmpty && params.any fun p => p.hasDefault || p.isProperty)
  let nodes := params.map (·.node)
  return (.scope true (Node.boundNamesAll nodes) (nodes ++ marks ++ body ++ generic ++ result),
    !body.isEmpty)

def functionRest (g : Grammar) (k : FunctionKind) : Parse Node := do
  return (← functionFrom g k false [] fun _ => true).1

def getterParameters (ps : List Parameter) : Bool := (ps.filter (!·.isThis)).isEmpty

def setterParameters (ps : List Parameter) : Bool :=
  (ps.filter (!·.isThis)).length == 1 && !(ps.any (·.isRest))

def arrowBody (g : Grammar) (k : FunctionKind) (simple : Bool) : Parse Node := do
  if ← atMark .openBrace then functionBody g k simple
  else
    let m ← read
    inMode (fun inner => { k.enter inner with
      allowIn := m.allowIn, inBranch := m.inBranch, colonAhead := m.colonAhead }) (g .assignment)

def arrowFrom (g : Grammar) (async : Bool) (patterns types : List Node) : Parse Node := do
  require !(← newline)
  expect .arrow
  let simple := patterns.all fun p => match p with
    | .form .parameter [.name _] => true
    | _ => false
  let body ← arrowBody g { async, arrow := true } simple
  return .form .arrow [.scope true (Node.boundNamesAll patterns) (patterns ++ [body] ++ types)]

def functionExpression (g : Grammar) (async : Bool) : Parse Node := do
  expectWord "function"
  let generator ← eat .star
  let k : FunctionKind := { async, generator }
  let own ← match ← token with
    | .word _ _ =>
      let name ← inMode (fun m => { m with async, generator }) bindingName
      pure [Node.name name]
    | _ => pure []
  return .form .functionExpression (own ++ [← functionRest g k])

def functionDeclaration (g : Grammar) (async : Bool) : Parse Node := do
  expectWord "function"
  let generator ← eat .star
  let name ← bindingName
  return .declare false [name] [← functionRest g { async, generator }]

end BundlePrep.Script.Parse
