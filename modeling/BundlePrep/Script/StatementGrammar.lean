import BundlePrep.Script.ExpressionGrammar

/-!
# Statements

Control flow, variables and blocks, and the declarations that only a grammar with types has.
-/

set_option autoImplicit false

namespace BundlePrep.Script.Parse

variable {α : Type}

def statement (parts : List Node) : Node := .form .statement parts

def headExpression (g : Grammar) : Parse Node := do
  expect .openParen
  let value ← withIn (g .expression)
  expect .closeParen
  return value

/-! ## Variables -/

inductive VariableKind where
  | var | let | const
  deriving DecidableEq, Repr

structure Declarator where
  pattern : Node
  types : List Node
  value : List Node

def atLoopWord : Parse Bool := do return (← atWord "of") || (← atWord "in")

def declarator (g : Grammar) (kind : VariableKind) (inHead : Bool) : Parse Declarator := do
  let pattern ← g .binding
  if kind != .var && isBareName pattern then
    require !((Node.boundNames pattern).contains "let")
  if (← hasTypes) && isBareName pattern then let _ ← eat .bang
  let types ← ascription? g
  if inHead && (← atLoopWord) then return ⟨pattern, types, []⟩
  if ← eat .assign then
    let value ← inMode (fun m => { m with inBranch := false, colonAhead := false }) (g .assignment)
    return ⟨pattern, types, [value]⟩
  require ((← read).ambient || (isBareName pattern && (kind != .const || inHead)))
  return ⟨pattern, types, []⟩

def declarators (g : Grammar) (kind : VariableKind) (inHead : Bool) : Parse (List Declarator) := do
  let first ← declarator g kind inHead
  let more ← many do
    if ← eat .comma then return some (← declarator g kind inHead) else return none
  return first :: more

def variableDeclaration (kind : VariableKind) (found : List Declarator) : Node :=
  .declare (kind == .var) (Node.boundNamesAll (found.map (·.pattern)))
    (found.flatMap fun d => d.pattern :: d.types ++ d.value)

def atLet : Parse Bool := do
  if !(← atWord "let") then return false
  match (← ahead).token with
  | .word w _ => return w == "let" || w == "yield" || w == "await" || !isReserved w
  | .mark .openBrace | .mark .openBracket => return true
  | _ => return false

def atUsing : Parse Bool := do
  if !(← atWord "using") then return false
  let next ← ahead
  match next.token with
  | .word w _ => return !next.newline && !isReserved w && w != "of"
  | _ => return false

def variableKind? : Parse (Option VariableKind) := do
  if ← atWord "var" then return some .var
  if ← atWord "const" then return some .const
  if ← atLet then return some .let
  return none

def variableStatement (g : Grammar) (kind : VariableKind) : Parse Node := do
  advance
  let found ← declarators g kind false
  semicolon
  return variableDeclaration kind found

def usingNode (found : List Declarator) : Node :=
  .form .using (found.map fun d => .form .variable (d.pattern :: d.types ++ d.value))

def usingStatement (g : Grammar) : Parse Node := do
  advance
  let found ← declarators g .const false
  semicolon
  return usingNode found

/-! ## Loops -/

def loopMode (m : Mode) : Mode := { m with breakable := true, continuable := true }

def loopBody (g : Grammar) : Parse Node := inMode loopMode (g (.statement false))

def optionalExpression (g : Grammar) (close : Mark) : Parse (List Node) := do
  if ← eat close then return []
  let value ← withIn (g .expression)
  expect close
  return [value]

def countingHead (g : Grammar) (init : List Node) : Parse (List Node) := do
  let test ← if ← atMark .semicolon then pure [] else pure [← withIn (g .expression)]
  let _ ← eat .semicolon
  let update ← optionalExpression g .closeParen
  return init ++ test ++ update

def eachHead (g : Grammar) (target : Node) : Parse (List Node) := do
  let values ← if ← eatWord "of" then withIn (g .assignment)
    else do
      expectWord "in"
      withIn (g .expression)
  expect .closeParen
  return [target, values]

def withoutIn (p : Parse α) : Parse α := inMode (fun m => { m with allowIn := false }) p

inductive LoopStart where
  | empty
  | counting (init : Node)
  | each (target : Node)

/-- Variables at the beginning of a loop. A loop over keys may give its variable a first value. -/
def loopVariables (g : Grammar) (kind : VariableKind) (node : List Declarator → Node) :
    Parse LoopStart := do
  advance
  let found ← withoutIn (declarators g kind true)
  if ← atLoopWord then
    let oldStyle := kind == .var && (← atWord "in")
    require (found.length == 1
      && found.all fun d => d.types.isEmpty && (d.value.isEmpty || oldStyle))
    if found.any fun d => !d.value.isEmpty then refuseStrict
    return .each (node found)
  return .counting (node found)

def loopUsing (g : Grammar) : Parse LoopStart := do
  match ← loopVariables g .const usingNode with
  | .each target => return .each target
  | _ => failure

def loopStart (g : Grammar) (awaits : Bool) : Parse LoopStart := do
  if ← atMark .semicolon then return .empty
  match ← variableKind? with
  | some kind => loopVariables g kind (variableDeclaration kind)
  | none =>
    if (← atWord "await") && (← ahead).token == .word "using" false then
      advance
      return ← loopUsing g
    if ← atUsing then return ← loopUsing g
    let asyncOf := (← atWord "async") && (← ahead).token == .word "of" false
    let init ← withoutIn (g .expression)
    if ← atLoopWord then
      require !(asyncOf && !awaits && isBareName init && (← atWord "of"))
      match init.asTarget with
      | some target =>
        checkTarget target
        return .each target
      | none => failure
    return .counting init

def forHead (g : Grammar) (awaits : Bool) : Parse (List Node) := do
  match ← loopStart g awaits with
  | .each target =>
    require (!awaits || (← atWord "of"))
    eachHead g target
  | .empty =>
    require !awaits
    expect .semicolon
    countingHead g []
  | .counting init =>
    require !awaits
    expect .semicolon
    countingHead g [init]

def forStatement (g : Grammar) : Parse Node := do
  expectWord "for"
  let awaits ← eatWord "await"
  expect .openParen
  let head ← forHead g awaits
  return .scope false [] (head ++ [← loopBody g])

/-! ## Control flow -/

def branch (g : Grammar) : Parse Node := do
  if ← atWord "function" then
    require !(← hasTypes)
    sloppyOnly
    return .scope false [] [← functionDeclaration g false]
  g (.statement false)

def ifStatement (g : Grammar) : Parse Node := do
  expectWord "if"
  let test ← headExpression g
  let yes ← branch g
  if ← eatWord "else" then return statement [test, yes, ← branch g]
  return statement [test, yes]

def doStatement (g : Grammar) : Parse Node := do
  expectWord "do"
  let body ← loopBody g
  expectWord "while"
  let test ← headExpression g
  let _ ← eat .semicolon
  return statement [test, body]

def whileStatement (g : Grammar) : Parse Node := do
  expectWord "while"
  let test ← headExpression g
  return statement [test, ← loopBody g]

def withStatement (g : Grammar) : Parse Node := do
  expectWord "with"
  require !(← hasTypes)
  sloppyOnly
  let object ← headExpression g
  return statement [object, ← g (.statement false)]

def caseBody (g : Grammar) : Parse (List Node) :=
  many do
    if (← atMark .closeBrace) || (← atWord "case") || (← atWord "default") then return none
    return some (← g (.statement true))

def switchCase (g : Grammar) : Parse (List Node × Bool) := do
  if ← eatWord "default" then
    expect .colon
    return (← caseBody g, true)
  expectWord "case"
  let test ← withIn (g .expression)
  expect .colon
  return (test :: (← caseBody g), false)

def switchStatement (g : Grammar) : Parse Node := do
  expectWord "switch"
  let value ← headExpression g
  expect .openBrace
  let cases ← inMode (fun m => { m with breakable := true }) (many do
    if ← atMark .closeBrace then return none
    return some (← switchCase g))
  expect .closeBrace
  require ((cases.filter (·.2)).length ≤ 1)
  return .form .switchBody (value :: cases.flatMap (·.1))

def catchClause (g : Grammar) : Parse Node := do
  expectWord "catch"
  if ← eat .openParen then
    let pattern ← g .binding
    let types ← ascription? g
    expect .closeParen
    return .scope false (Node.boundNames pattern) (pattern :: types ++ [← blockBody g])
  return .scope false [] [← blockBody g]

def tryStatement (g : Grammar) : Parse Node := do
  expectWord "try"
  let block ← blockBody g
  let handler ← if ← atWord "catch" then pure [← catchClause g] else pure []
  let finalizer ← if ← eatWord "finally" then pure [← blockBody g] else pure []
  require !(handler.isEmpty && finalizer.isEmpty)
  return statement (block :: handler ++ finalizer)

def returnStatement (g : Grammar) : Parse Node := do
  require (← read).inFunction
  expectWord "return"
  if ← atStatementEnd then
    semicolon
    return statement []
  let value ← withIn (g .expression)
  semicolon
  return statement [value]

def throwStatement (g : Grammar) : Parse Node := do
  expectWord "throw"
  require !(← newline)
  let value ← withIn (g .expression)
  semicolon
  return statement [value]

def jumpLabel? : Parse (Option String) := do
  if ← atStatementEnd then
    semicolon
    return none
  let label ← identifier
  require ((← read).labels.contains label)
  semicolon
  return some label

def breakStatement : Parse Node := do
  expectWord "break"
  let _ ← jumpLabel?
  require (← read).breakable
  return statement []

def continueStatement : Parse Node := do
  expectWord "continue"
  let _ ← jumpLabel?
  require (← read).continuable
  return statement []

def labelled (g : Grammar) : Parse Node := do
  let label ← identifier
  expect .colon
  let m ← read
  require !(m.labels.contains label)
  inMode (fun m => { m with labels := label :: m.labels, breakable := true }) do
    if (← atWord "function") && (← ahead).token != .mark .star then
      sloppyOnly
      return statement [← functionDeclaration g false]
    return statement [← g (.statement false)]

/-! ## Declarations with types -/

def interfaceDeclaration (g : Grammar) : Parse Node := do
  advance
  match ← token with
  | .word w _ => require !builtinTypes.contains w
  | _ => failure
  typeName
  let generic ← typeParameters? g .ofType
  let bases ← heritage g "extends"
  return typeOf (generic ++ bases ++ (← typeMembers g))

def typeAlias (g : Grammar) : Parse Node := do
  advance
  typeName
  let generic ← typeParameters? g .ofType
  expect .assign
  let type ← g .type
  semicolon
  return typeOf (generic ++ [type])

def enumMember (g : Grammar) : Parse Node := do
  match ← token with
  | .word _ _ | .text _ => advance
  | .mark .openBracket =>
    advance
    if ← atMark .backquote then
      let (parts, valid) ← template failure
      require (parts.isEmpty && valid)
    else let _ ← quoted
    expect .closeBracket
  | _ => failure
  if ← eat .assign then withIn (g .assignment) else return leaf

def enumDeclaration (g : Grammar) : Parse Node := do
  expectWord "enum"
  let name ← anyWord
  expect .openBrace
  let (found, _) ← separated .closeBrace (enumMember g)
  return .form .enumBody (.name name :: found)

def namespaceBody (g : Grammar) : Parse Node := do
  expect .openBrace
  let found ← many do
    if ← atMark .closeBrace then return none
    return some (← g .item)
  expect .closeBrace
  return .form .namespaceBody found

/-- A namespace of a name with dots in it is one namespace inside the other. -/
def namespacesAround (body : Node) : List String → Node
  | [] => body
  | [name] => .form .namespace [.name name, body]
  | name :: names =>
    .form .namespace [.name name, .form .namespaceBody [namespacesAround body names]]

def namespaceFrom (g : Grammar) : Parse Node := do
  match ← token with
  | .text _ =>
    advance
    if ← atMark .openBrace then namespaceBody g
    else
      semicolon
      return .form .namespaceBody []
  | _ =>
    let names ← entityPath
    return namespacesAround (← namespaceBody g) names

def atAbstractClass : Parse Bool := do
  let next ← ahead
  return (← hasTypes) && (← atWord "abstract") && next.token == .word "class" false && !next.newline

inductive Contextual where
  | interface | aliasType | enumeration | constEnumeration | namespace | global | ambient
  | abstractClass

def contextual? : Parse (Option Contextual) := do
  if !(← hasTypes) then return none
  let next ← ahead
  let isName := match next.token with
    | .word w _ => !isReserved w
    | _ => false
  let named := isName && !next.newline
  match ← token with
  | .word "interface" false => return if named then some .interface else none
  | .word "type" false => return if named then some .aliasType else none
  | .word "enum" false => return if next.newline then none else some .enumeration
  | .word "const" false =>
    return if next.token == .word "enum" false then some .constEnumeration else none
  | .word "namespace" false => return if isName then some .namespace else none
  | .word "module" false =>
    match next.token with
    | .text _ => return if next.newline then none else some .namespace
    | _ => return if named then some .namespace else none
  | .word "global" false =>
    return if next.token == .mark .openBrace && !next.newline then some .global else none
  | .word "declare" false =>
    match next.token with
    | .word _ _ => return if next.newline then none else some .ambient
    | _ => return none
  | .word "abstract" false =>
    return if ← atAbstractClass then some .abstractClass else none
  | _ => return none

def declarationWords : List String :=
  ["function", "class", "abstract", "const", "let", "var", "enum", "interface", "type", "namespace",
    "module", "global"]

def ambientDeclaration (g : Grammar) : Parse Node := do
  expectWord "declare"
  match ← token with
  | .word w false =>
    require (declarationWords.contains w)
    inMode (fun m => { m with ambient := true }) (g (.statement true))
  | _ => failure

def contextual (g : Grammar) : Contextual → Parse Node
  | .interface => interfaceDeclaration g
  | .aliasType => typeAlias g
  | .enumeration => enumDeclaration g
  | .constEnumeration => do
    advance
    enumDeclaration g
  | .namespace => do
    advance
    namespaceFrom g
  | .global => do
    advance
    namespaceBody g
  | .ambient => ambientDeclaration g
  | .abstractClass => do
    advance
    classDeclaration g [] true

/-! ## Statements -/

/-- An expression as a statement. One that begins with `import` needs no semicolon behind it. -/
def expressionStatement (g : Grammar) : Parse Node := do
  let imports ← atWord "import"
  let value ← withIn (g .expression)
  if imports then let _ ← eat .semicolon else semicolon
  return statement [value]

def atAsyncFunction : Parse Bool := do
  let next ← ahead
  return (← atWord "async") && next.token == .word "function" false && !next.newline

def awaitedUsing : Parse Unit := do
  expectWord "await"
  require !(← newline)
  require (← atUsing)

def wordStatement (g : Grammar) (word : String) (declarations : Bool) : Parse Node := do
  match word with
  | "if" => ifStatement g
  | "for" => forStatement g
  | "while" => whileStatement g
  | "do" => doStatement g
  | "switch" => switchStatement g
  | "try" => tryStatement g
  | "return" => returnStatement g
  | "throw" => throwStatement g
  | "break" => breakStatement
  | "continue" => continueStatement
  | "with" => withStatement g
  | "debugger" =>
    advance
    semicolon
    return statement []
  | "var" => variableStatement g .var
  | "function" =>
    require declarations
    functionDeclaration g false
  | "class" =>
    require declarations
    classDeclaration g [] false
  | _ =>
    if declarations then
      if ← atWord "const" then return ← variableStatement g .const
      if ← atLet then return ← variableStatement g .let
      if ← atUsing then return ← usingStatement g
      if ← succeeds awaitedUsing then
        if !(← read).inFunction then noteModule
        advance
        return ← usingStatement g
    if ← atAsyncFunction then
      advance
      return ← functionDeclaration g true
    expressionStatement g

def plainStatement (g : Grammar) (declarations : Bool) : Parse Node := do
  match ← token with
  | .mark .openBrace => blockBody g
  | .mark .semicolon =>
    advance
    return statement []
  | .word word escaped =>
    if (← ahead).token == .mark .colon && !isReserved word && word != "await" then labelled g
    else if escaped then expressionStatement g
    else
      match ← contextual? with
      | some what =>
        require declarations
        contextual g what
      | none => wordStatement g word declarations
  | _ => expressionStatement g

def statementAt (g : Grammar) (declarations : Bool) : Parse Node := do
  if !(← atMark .at) then return ← plainStatement g declarations
  let marks ← decorators g
  if ← atAbstractClass then
    require declarations
    advance
    classDeclaration g marks true
  else if ← atWord "class" then
    require declarations
    classDeclaration g marks false
  else plainStatement g declarations

end BundlePrep.Script.Parse
