import BundlePrep.Script.StatementGrammar

/-!
# Imports and exports

An import of values keeps the module it names and the names it binds; imports of types bind nothing
at run time and are dropped.
-/

set_option autoImplicit false

namespace BundlePrep.Script.Parse

def erased : Node := .form .exportList []

def attributes (g : Grammar) : Parse Unit := do
  if (← atWord "with") || ((← atWord "assert") && !(← newline)) then
    advance
    require (← atMark .openBrace)
    let _ ← g .assignment

def moduleRequest (g : Grammar) : Parse (Option String) := do
  let source ← quoted
  attributes g
  semicolon
  return source

structure ExportedName where
  text : Option String
  isWord : Bool

def exportedName : Parse ExportedName := do
  match ← token with
  | .text value =>
    advance
    return ⟨value, false⟩
  | _ => return ⟨some (← anyWord), true⟩

def typeMarker : Parse Unit := do
  expectWord "type"
  match ← token with
  | .word "as" _ =>
    let next ← ahead
    match next.token, next.next.token with
    | .word _ _, .mark .comma | .word _ _, .mark .closeBrace => failure
    | _, _ => return
  | .word _ _ => return
  | _ => failure

def eatTypeMarker : Parse Bool := do
  if (← hasTypes) && (← succeeds typeMarker) then
    advance
    return true
  return false

/-- A name in the braces of an import, unless it is that of a type. Names in an import of types are
not marked again. -/
def importSpecifier (types : Bool) : Parse (Option ImportBinding) := do
  let isType ← eatTypeMarker
  require !(types && isType)
  let first ← exportedName
  let bound ← if ← eatWord "as" then some <$> bindingName else pure none
  match bound, first with
  | some bound, _ => return if isType then none else some ⟨bound, first.text.getD ""⟩
  | none, ⟨some word, true⟩ =>
    return if isType then none else some ⟨word, word⟩
  | none, _ => failure

def importSpecifiers (types : Bool) : Parse (List ImportBinding) := do
  expect .openBrace
  let (found, _) ← separated .closeBrace (importSpecifier types)
  return found.filterMap id

def namespaceImport : Parse ImportBinding := do
  expect .star
  expectWord "as"
  return ⟨← bindingName, none⟩

def importClause (types : Bool) : Parse (List ImportBinding) := do
  if ← atMark .star then return [← namespaceImport]
  importSpecifiers types

def importNode (source : Option String) (isType : Bool) (bindings : List ImportBinding) : Node :=
  match source, isType with
  | some source, false => .importing source bindings
  | _, _ => erased

def importEquals (name : String) (isType : Bool) : Parse Node := do
  expect .assign
  if (← atWord "require") && (← ahead).token == .mark .openParen then
    advance
    advance
    let source ← quoted
    expect .closeParen
    semicolon
    return importNode source isType [⟨name, none⟩]
  entityName
  semicolon
  return if isType then erased else .form .importAlias [.name name]

def importTypeMarker : Parse Unit := do
  expectWord "type"
  match ← token with
  | .mark .openBrace | .mark .star => return
  | .word "from" _ => require ((← ahead).token == .word "from" false
      || (← ahead).token == .mark .assign)
  | .word _ _ => return
  | _ => failure

def importPhase : Parse Unit := do
  match ← token, (← ahead).token with
  | .word "defer" false, .mark .star => advance
  | .word "source" false, .word w _ =>
    advance
    require (w != "from")
  | _, _ => failure

def importItem (g : Grammar) : Parse Node := do
  expectWord "import"
  match ← token with
  | .text _ =>
    let source ← quoted
    attributes g
    let _ ← eat .semicolon
    return importNode source false []
  | _ =>
    let isType ← if (← hasTypes) && (← succeeds importTypeMarker) then eatWord "type"
      else pure false
    if ← succeeds importPhase then advance
    match ← token with
    | .word _ _ =>
      require !(← atWord "await")
      let name ← bindingName
      if (← hasTypes) && (← atMark .assign) then importEquals name isType
      else
        let more ← if (← eat .comma) && !(← atWord "from") then importClause isType else pure []
        expectWord "from"
        return importNode (← moduleRequest g) isType (⟨name, some "default"⟩ :: more)
    | _ =>
      let bindings ← importClause isType
      expectWord "from"
      return importNode (← moduleRequest g) isType bindings

/-! ## Exports -/

def exportSpecifier (types : Bool) : Parse Bool := do
  let isType ← eatTypeMarker
  require !(types && isType)
  let first ← exportedName
  if ← eatWord "as" then let _ ← exportedName
  return first.isWord && !((first.text.map isReserved).getD false)

def exportSpecifiers (g : Grammar) (types : Bool) : Parse Node := do
  expect .openBrace
  let (found, _) ← separated .closeBrace (exportSpecifier types)
  if ← eatWord "from" then let _ ← moduleRequest g
  else
    require (found.all id)
    let _ ← eat .semicolon
  return erased

def exportAll (g : Grammar) : Parse Node := do
  expect .star
  if ← eatWord "as" then let _ ← exportedName
  expectWord "from"
  let _ ← moduleRequest g
  return erased

def defaultExport (g : Grammar) (marks : List Node) : Parse Node := do
  let next ← ahead
  let own ← if ← atMark .at then decorators g else pure []
  require (marks.isEmpty || own.isEmpty)
  let marks := marks ++ own
  if ← atAbstractClass then
    advance
    return ← classExpression g marks true
  match ← token with
  | .word "function" false => functionExpression g false
  | .word "class" false => classExpression g marks false
  | .word w false =>
    if w == "async" && next.token == .word "function" false && !next.newline then
      advance
      functionExpression g true
    else if w == "interface" && (← hasTypes) && !next.newline then interfaceDeclaration g
    else value
  | _ => value
where
  value : Parse Node := do
    let found ← withIn (g .assignment)
    semicolon
    return found

def exportedDeclaration (g : Grammar) (marks : List Node) : Parse Node := do
  match ← token with
  | .mark .at =>
    require marks.isEmpty
    let own ← decorators g
    classDeclaration g own false
  | .word w false =>
    if w == "class" then classDeclaration g marks false
    else if ← atAbstractClass then
      advance
      classDeclaration g marks true
    else if ← atAsyncFunction then g (.statement true)
    else if ["const", "let", "var", "function"].contains w then g (.statement true)
    else
      match ← contextual? with
      | some .global => failure
      | some what => contextual g what
      | none => failure
  | _ => failure

def exportItem (g : Grammar) (marks : List Node) : Parse Node := do
  expectWord "export"
  let types ← hasTypes
  let next := (← ahead).token
  match ← token with
  | .mark .star => exportAll g
  | .mark .openBrace => exportSpecifiers g false
  | .mark .assign =>
    require types
    advance
    let value ← withIn (g .expression)
    semicolon
    return statement [value]
  | .word "default" false =>
    advance
    defaultExport g marks
  | .word "import" false =>
    require types
    advance
    let isType ← if (← atWord "type") && next != .mark .assign && (← ahead).token != .mark .assign
      then eatWord "type" else pure false
    importEquals (← bindingName) isType
  | .word "as" false =>
    require types
    advance
    expectWord "namespace"
    let _ ← bindingName
    semicolon
    return erased
  | .word "type" false =>
    if types && next == .mark .openBrace then
      advance
      exportSpecifiers g true
    else if types && next == .mark .star then
      advance
      exportAll g
    else exportedDeclaration g marks
  | _ => exportedDeclaration g marks

/-! ## Items -/

def atImport : Parse Bool := do
  if !(← atWord "import") then return false
  let next := (← ahead).token
  return next != .mark .openParen && next != .mark .dot

def itemMarks (g : Grammar) : Parse (List Node) := do
  if !(← atMark .at) then return []
  let found ← attempt do
    let marks ← decorators g
    require ((← atImport) || (← atWord "export"))
    return marks
  return found.getD []

/-- An import or an export, if one stands here. On the top level it makes the file a module. -/
def moduleItem? (g : Grammar) (top : Bool) : Parse (Option Node) := do
  let marks ← itemMarks g
  if ← atImport then
    if top then noteModule
    return some (← inMode (fun m => { m with inModule := true }) (importItem g))
  if ← atWord "export" then
    require (marks.isEmpty || (← hasTypes))
    if top then noteModule
    return some (← exportItem g marks)
  return none

def innerItem (g : Grammar) : Parse Node := do
  match ← moduleItem? g false with
  | some node => return node
  | none => g (.statement true)

/-- The items of a whole script. Behind its first import or export, a file is known to be a
module. -/
def topItems (g : Grammar) (strict : Bool) : Parse (List Node) := do
  let (found, _) ← extend (fun (found, inModule) => do
    if ← atEnd then return none
    inMode (fun m => { m with strict, inModule }) do
      match ← moduleItem? g true with
      | some node => return some (node :: found, true)
      | none => return some ((← g (.statement true)) :: found, inModule)) ([], false)
  return found.reverse

end BundlePrep.Script.Parse
