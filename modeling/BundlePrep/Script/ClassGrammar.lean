import BundlePrep.Script.FunctionGrammar

/-!
# Classes

The members of a class are fields, methods, accessors, constructors, static blocks and, where types
are allowed, index signatures. The code of a class is strict.
-/

set_option autoImplicit false

namespace BundlePrep.Script.Parse

structure ClassKind where
  derived : Bool
  abstract : Bool

structure MemberMarks where
  decorators : List Node := []
  declared : Bool := false
  access : Bool := false
  isStatic : Bool := false
  readonly : Bool := false
  abstract : Bool := false
  overrides : Bool := false
  accessor : Bool := false

structure MemberKey where
  node : Node
  word : Option String
  isPrivate : Bool
  isConstructor : Bool

def memberKey (g : Grammar) : Parse MemberKey := do
  match ← token with
  | .privateWord text =>
    require (text != "constructor")
    return ⟨← privateName, none, true, false⟩
  | _ =>
    let key ← propertyKey g
    return ⟨key.node, key.word, false, key.text == some "constructor"⟩

def wordKey (word : String) : MemberKey := ⟨.form .key [], some word, false, false⟩

def atMethod : Parse Bool := do
  return (← atMark .openParen) || ((← hasTypes) && (← atMark .less))

/-- Whether a field whose key was just read goes on or ends here; `lines` says whether a line end
also ends it. -/
def atField (lines : Bool) : Parse Bool := do
  match ← token with
  | .mark .assign | .mark .closeBrace | .mark .semicolon => return true
  | .mark .bang | .mark .colon => if ← hasTypes then return true else return lines && (← newline)
  | .finish => return lines
  | _ => return lines && (← newline)

def eatOptional : Parse Bool := do
  if ← hasTypes then eat .question else return false

def memberNode (key : MemberKey) (parts : List Node) : Node := .form .member (key.node :: parts)

def fieldMode (m : Mode) : Mode :=
  { m with
    allowIn := true, inField := true, superProperty := true, newTarget := true,
    arrowStart := none, inBranch := false, colonAhead := false }

/-- The mode of a static block: like a field, it has no `arguments` of its own. -/
def staticBlockMode (m : Mode) : Mode :=
  { fieldMode m with inStaticBlock := true, superCall := false }

/-! ## Fields and methods -/

def field (g : Grammar) (c : ClassKind) (marks : MemberMarks) (key : MemberKey) (optional : Bool) :
    Parse Node := do
  require !key.isConstructor
  if key.isPrivate then
    require !(marks.declared || marks.abstract || (marks.access && !marks.accessor))
  if (← hasTypes) && !optional then let _ ← eat .bang
  let types ← ascription? g
  let value ← if ← eat .assign then
      pure [← inMode fieldMode (g .assignment)]
    else pure []
  if marks.abstract && !marks.accessor then require (c.abstract && value.isEmpty)
  semicolon
  return memberNode key (value ++ types ++ marks.decorators)

def method (g : Grammar) (c : ClassKind) (marks : MemberMarks) (key : MemberKey) (k : FunctionKind)
    (check : List Parameter → Bool) : Parse Node := do
  require !(key.isPrivate && marks.access)
  require (← atMethod)
  let (function, hasBody) ← functionFrom g { k with method := true } false marks.decorators check
  if marks.abstract && !key.isPrivate then require (c.abstract && !hasBody)
  return memberNode key [function]

abbrev Member := Node × Bool

def constructor (g : Grammar) (c : ClassKind) (marks : MemberMarks) (key : MemberKey) :
    Parse Member := do
  require (← atMark .openParen)
  require !(marks.abstract || marks.overrides || marks.isStatic)
  let k : FunctionKind := { method := true, derived := c.derived }
  let params ← inMode k.enterParameters (parameters g true)
  let body ← functionBody? g k (params.all (·.simple))
  require !(body.isEmpty && params.any fun p => p.hasDefault || p.isProperty)
  let nodes := params.map (·.node)
  return (memberNode key [.scope true (Node.boundNamesAll nodes) (nodes ++ body)], !body.isEmpty)

def staticBlock (g : Grammar) : Parse Node := do
  return .form .staticBlock [← inMode staticBlockMode (blockBody g)]

def wordedMethod (g : Grammar) (c : ClassKind) (marks : MemberMarks) (k : FunctionKind)
    (optional : Bool) (check : List Parameter → Bool) : Parse Member := do
  let key ← memberKey g
  require !key.isConstructor
  require !marks.readonly
  if optional then let _ ← eatOptional
  return (← method g c marks key k check, false)

def memberFromKey (g : Grammar) (c : ClassKind) (marks : MemberMarks) : Parse Member := do
  if ← eat .star then
    return ← wordedMethod g c marks { generator := true } false fun _ => true
  let key ← memberKey g
  let optional ← eatOptional
  if ← atMethod then
    require !(marks.declared || marks.readonly)
    if key.isConstructor then return ← constructor g c marks key
    return (← method g c marks key {} fun _ => true, false)
  let generatorBehind := (← newline) && (← atMark .star)
  let accessorWord := key.word.filter fun w => w == "get" || w == "set"
  match accessorWord with
  | some word =>
    if (← atField false) || generatorBehind then
      return (← field g c marks key optional, false)
    wordedMethod g c marks {} false
      (if word == "get" then getterParameters else setterParameters)
  | none =>
    if ← atField true then return (← field g c marks key optional, false)
    require (key.word == some "async" && !(← newline))
    require !(← modifier "override")
    let generator ← eat .star
    wordedMethod g c marks { async := true, generator } true fun _ => true

/-! ## Modifiers -/

/-- A word that may be a modifier, taken, with the member that has it as its key if it is none.
`lines` says whether a line end behind the word makes it a key. -/
def modifierOrMember (g : Grammar) (c : ClassKind) (marks : MemberMarks) (word : String)
    (lines : Bool) : Parse (Option Member) := do
  advance
  if ← atMethod then return some (← method g c marks (wordKey word) {} fun _ => true, false)
  if word == "static" && (← atMark .openBrace) then return none
  if (← atField lines) || ((← hasTypes) && (← atMark .question)) then
    let optional ← eatOptional
    return some (← field g c marks (wordKey word) optional, false)
  return none

/-- The modifiers that come in any order; some of them exclude each other. Also whether there is
one. -/
def freeModifiers (c : ClassKind) (marks : MemberMarks) : Parse (MemberMarks × Bool) :=
  extend (fun (marks, _) => do
    if (← atWord "static") && (← ahead).token == .mark .openBrace then return none
    match ← modifier? ["abstract", "readonly", "override", "static"] with
    | some "abstract" =>
      require !(marks.abstract || marks.overrides)
      return some ({ marks with abstract := true }, true)
    | some "override" =>
      require (c.derived && !(marks.overrides || marks.readonly || marks.declared))
      return some ({ marks with overrides := true }, true)
    | some "readonly" =>
      require !marks.readonly
      return some ({ marks with readonly := true }, true)
    | some _ =>
      require !marks.overrides
      return some ({ marks with isStatic := true }, true)
    | none => return none) (marks, false)

def lateAccessor (marks : MemberMarks) : Parse MemberMarks := do
  let next := (← ahead).token
  if (← hasTypes) && !marks.accessor && !marks.readonly && (← atWord "accessor")
      && next != .mark .openParen then
    advance
    return { marks with accessor := true }
  return marks

def modifiedMember (g : Grammar) (c : ClassKind) (first : MemberMarks) : Parse Member := do
  let (marks, more) ← freeModifiers c first
  let marks ← if more then lateAccessor marks else pure marks
  if marks.isStatic && (← atMark .openBrace) then
    require !(marks.declared || marks.access)
    return (← staticBlock g, false)
  if (← atWord "static") && (← ahead).token == .mark .openBrace then
    require !(more || marks.isStatic)
    advance
    return (← staticBlock g, false)
  let plain := !(marks.abstract || marks.overrides || marks.access)
  if plain && (← hasTypes) && (← succeeds indexSignatureHead) then
    let signature ← indexSignature g
    memberEnd
    return (signature, false)
  memberFromKey g c marks

def fixedModifier (g : Grammar) (c : ClassKind) (marks : MemberMarks) (word : String)
    (lines : Bool) (next : Bool → Parse Member) : Parse Member := do
  if ← atWord word then
    match ← modifierOrMember g c marks word lines with
    | some member => return member
    | none => next true
  else next false

def member (g : Grammar) (c : ClassKind) : Parse Member := do
  if ← eat .semicolon then return (.form .emptyMember [], false)
  let marks : MemberMarks := { decorators := ← decorators g }
  let types ← hasTypes
  let early ← if types && (← succeeds declaredAccess) then eatWord "declare" else pure false
  let access ← accessModifier
  let marks := { marks with access }
  let statics (marks : MemberMarks) : Parse Member :=
    fixedModifier g c marks "static" false fun isStatic => do
      let marks := { marks with isStatic }
      if types then
        fixedModifier g c marks "accessor" true fun accessor =>
          modifiedMember g c { marks with accessor }
      else modifiedMember g c marks
  if types && !early then
    fixedModifier g c marks "declare" true fun declared => statics { marks with declared }
  else statics { marks with declared := early }
where
  declaredAccess : Parse Unit := do
    expectWord "declare"
    require (← accessModifier)

def classMembers (g : Grammar) (c : ClassKind) : Parse (List Node) := do
  expect .openBrace
  let found ← many do
    if ← atMark .closeBrace then return none
    return some (← member g c)
  expect .closeBrace
  require ((found.filter (·.2)).length ≤ 1)
  return found.map (·.1)

def classFrom (g : Grammar) (marks : List Node) (named abstract : Bool) :
    Parse (Option String × Node) :=
  inMode (fun m => { m with strict := true }) do
    expectWord "class"
    let types ← hasTypes
    let own ← match ← token with
      | .word w _ =>
        if w == "extends" || (types && w == "implements" && !named) then pure none
        else
          require !(w == "await" && !named)
          some <$> bindingName
      | _ => pure none
    require (own.isSome || !named)
    if types then require !((own.map builtinTypes.contains).getD false)
    let generic ← typeParameters? g .ofClass
    let parent ← if ← eatWord "extends" then
        inMode (fun m => { m with arrowStart := none }) do
          let base ← g .leftHand
          let baseTypes ← if types then typeArguments? g else pure []
          if types && (← ahead).token == .mark .openBrace then let _ ← eat .comma
          pure (some (base, baseTypes))
      else pure none
    let interfaces ← if types then heritage g "implements" else pure []
    let members ← classMembers g ⟨parent.isSome, abstract⟩
    let base := (parent.map fun p => [p.1]).getD []
    let baseTypes := (parent.map (·.2)).getD []
    return (own, .classBody marks base members (generic ++ baseTypes ++ interfaces))

def classExpression (g : Grammar) (marks : List Node) (abstract : Bool) : Parse Node := do
  let (own, body) ← classFrom g marks false abstract
  return .form .classExpression ((own.map Node.name).toList ++ [body])

def classDeclaration (g : Grammar) (marks : List Node) (abstract : Bool) : Parse Node := do
  match ← classFrom g marks true abstract with
  | (some name, body) => return .declare false [name] [body]
  | _ => failure

end BundlePrep.Script.Parse
