import BundlePrep.Script.ClassGrammar
import BundlePrep.Script.MarkupGrammar
import BundlePrep.Script.Target

/-!
# Expressions

From primary expressions through member accesses, calls and operators up to assignments. A list in
parentheses is read as expressions, and becomes the parameters of an arrow function when an arrow
follows it.
-/

set_option autoImplicit false

namespace BundlePrep.Script.Parse

def leaf : Node := .form .literal []

/-! ## Literals -/

def regex : Parse Node := do
  let c ← get
  match c.here with
  | '/' :: cs =>
    match scanRegex cs (c.span.start + 1) with
    | some (rest, pos) =>
      resume rest pos
      return leaf
    | none => failure
  | _ => failure

def plainTemplate (g : Grammar) : Parse Node := do
  let (parts, valid) ← template (withIn (g .expression))
  require valid
  return .form .template parts

def arrayLiteral (g : Grammar) : Parse Node := do
  expect .openBracket
  let (found, trailing) ← separated .closeBracket do
    if ← atMark .comma then return Node.form .hole []
    if ← eat .ellipsis then return .form .spread [← withIn (g .assignment)]
    withIn (g .assignment)
  let isHole := match found.getLast? with
    | some (.form .hole _) => true
    | _ => false
  let tail := if trailing && !isHole then [Node.form .trailingComma []] else []
  return .form .array (found ++ tail)

def accessorProperty (g : Grammar) (check : List Parameter → Bool) : Parse Node := do
  let key ← propertyKey g
  let (function, _) ← functionFrom g { method := true } false [] check
  match function with
  | .scope _ _ parts => return .form .accessorProperty (key.node :: parts)
  | _ => failure

def methodProperty (g : Grammar) (key : Node) (k : FunctionKind) : Parse Node := do
  return .form .methodProperty [key, ← functionRest g { k with method := true }]

def atPropertyEnd : Parse Bool := do
  match ← token with
  | .mark .colon | .mark .comma | .mark .closeBrace | .mark .assign | .mark .openParen =>
    return true
  | .mark .less => hasTypes
  | _ => return false

def objectProperty (g : Grammar) : Parse Node := do
  if ← eat .ellipsis then return .form .spread [← withIn (g .assignment)]
  let _ ← modifier "readonly"
  if ← eat .star then
    let key ← propertyKey g
    return ← methodProperty g key.node { generator := true }
  let key ← propertyKey g
  if ← eat .colon then return .form .property [key.node, ← withIn (g .assignment)]
  if ← atMethod then return ← methodProperty g key.node {}
  match key.word with
  | none => failure
  | some word =>
    if ← atPropertyEnd then shorthandBinding g word
    else if word == "get" then accessorProperty g getterParameters
    else if word == "set" then accessorProperty g setterParameters
    else
      require (word == "async")
      let generator ← eat .star
      let key ← propertyKey g
      methodProperty g key.node { async := true, generator }

def objectLiteral (g : Grammar) : Parse Node := do
  expect .openBrace
  let (found, trailing) ← separated .closeBrace (objectProperty g)
  let tail := if trailing then [Node.form .trailingComma []] else []
  return .form .object (found ++ tail)

/-! ## Arrow functions and parentheses -/

def arrowAllowed (start : Nat) : Parse Bool := return (← read).arrowStart == some start

def checkTarget (target : Node) : Parse Unit :=
  match target with
  | .name text => if isRestricted text then sloppyOnly else pure ()
  | target => if target.assigns isRestricted then refuseStrict else pure ()

def assignmentRest (g : Grammar) (left : Node) : Parse Node := do
  let c ← get
  match c.token with
  | .mark .assign =>
    match left.asTarget with
    | some target =>
      checkTarget target
      advance
      return .form .assign [target, ← g .assignment]
    | none => failure
  | t =>
    let doubled := match c.here with
      | '<' :: '<' :: '=' :: _ => 2
      | '>' :: '>' :: '=' :: _ => 2
      | '>' :: '>' :: '>' :: '=' :: _ => 3
      | _ => 0
    if doubled != 0 || t == .mark .compoundAssign || t == .mark .logicalAssign
        || t == .mark .slashAssign then
      require left.isPlace
      checkTarget left
      if doubled != 0 then resume (c.here.drop (doubled + 1)) (c.span.start + doubled + 1)
      else advance
      return .form .compoundAssign [left, ← g .assignment]
    else return left

def conditionalRest (g : Grammar) (test : Node) : Parse Node := do
  expect .question
  let yes ← inMode (fun m => { m with allowIn := true, inBranch := true, colonAhead := true })
    (g .assignment)
  expect .colon
  let no ← inMode (fun m => { m with inBranch := true, colonAhead := false }) (g .assignment)
  return .form .conditional [test, yes, no]

/-- An item of a list in parentheses: an expression, a spread one or, where types are allowed, a
parameter with a type. Its span leaves out the mark that spreads it. -/
structure ParenItem where
  node : Node
  span : Span

def parenItem (g : Grammar) : Parse ParenItem := do
  let spread ← eat .ellipsis
  let start ← position
  let m ← read
  let types := m.dialect.types
  let isName := match ← token with
    | .word w false => !isReserved w && !(w == "yield" && m.generator) && w != "await"
    | _ => false
  let item ← if types && isName then do
      let left ← inMode (fun m => { m with arrowStart := some start }) (g (.operation 0))
      if left.isArrow then pure left else assignmentRest g left
    else g .assignment
  let item ← if types && (← atMark .question) then do
      match (← ahead).token with
      | .mark .comma | .mark .colon | .mark .closeParen | .mark .assign => pure item
      | _ => if spread then pure item else conditionalRest g item
    else pure item
  let optional ← if types then eat .question else pure false
  let ascribed ← ascription? g
  if optional || !ascribed.isEmpty then
    match item.asElement with
    | none => failure
    | some pattern => ended start (← typed spread pattern ascribed)
  else if spread then ended start (.form .spread [item])
  else ended start item
where
  ended (start : Nat) (node : Node) : Parse ParenItem := return ⟨node, ⟨start, ← lastStop⟩⟩
  typed (spread : Bool) (pattern : Node) (ascribed : List Node) : Parse Node := do
    let pattern := if spread then Node.form .rest [pattern] else pattern
    let pattern ← if ← eat .assign then
        pure (Node.form .withDefault [pattern, ← withIn (g .assignment)])
      else pure pattern
    return .form .parameter (ascribed ++ [pattern])

def parenItems (g : Grammar) : Parse (List ParenItem × Bool) := do
  expect .openParen
  separated .closeParen (inMode (fun m => { m with
    allowIn := true, inBranch := false, colonAhead := false, arrowStart := none }) (parenItem g))

def isTyped : Node → Bool
  | .form .parameter _ => true
  | _ => false

def arrowParameters (items : List Node) (trailing : Bool) : Parse (List Node) := do
  let takesRest (n : Node) : Bool := match n with
    | .form .parameter parts => match parts.getLast? with
      | some (.form .rest _) => true
      | _ => false
    | _ => false
  match items.mapM Node.asParameter with
  | none => failure
  | some params =>
    require !(params.dropLast.any takesRest)
    require !(trailing && (params.getLast?.map takesRest).getD false)
    if (Node.boundNamesAll params).any isRestricted then refuseStrict
    return params

/-- An arrow function with a return type, in a branch of a conditional expression that a colon may
end. -/
def arrowInBranch (g : Grammar) (async : Bool) (items : List Node) (trailing : Bool) :
    Parse Node := do
  let ahead := (← read).colonAhead
  let result ← returnAscription? g
  require (← atMark .arrow)
  let params ← arrowParameters items trailing
  let arrow ← arrowFrom g async params result
  if ahead then require (← atMark .colon)
  return arrow

def returnBeforeArrow (g : Grammar) : Parse (List Node) := do
  let result ← returnAscription? g
  require (← atMark .arrow)
  return result

inductive Parenthesized where
  | arrow (node : Node)
  | list (items : List ParenItem)

def parenthesized (g : Grammar) (start : Nat) (async : Bool) : Parse Parenthesized := do
  let (found, trailing) ← parenItems g
  let items := found.map (·.node)
  let m ← read
  let types := m.dialect.types
  let colon ← atMark .colon
  let allowed ← arrowAllowed start
  let branch ← if types && m.inBranch && colon && allowed then
      attempt (arrowInBranch g async items trailing)
    else pure none
  match branch with
  | some node => return .arrow node
  | none =>
    let result ← if types && !m.colonAhead && colon then attempt (returnBeforeArrow g)
      else pure none
    if items.any isTyped || result.isSome || (← atMark .arrow) then
      require allowed
      let params ← arrowParameters items trailing
      return .arrow (← arrowFrom g async params (result.getD []))
    return .list found

/-- A list in parentheses that is an expression: no item of it is spread, and it is not empty. A
comma may follow its last item. An object literal in it has no defaults. -/
def parenExpression (g : Grammar) : Parse Node := do
  let start ← position
  match ← parenthesized g start false with
  | .arrow node => return node
  | .list found =>
    let items := found.map (·.node)
    require !(items.any fun n => match n with
      | .form .spread _ => true
      | _ => n.holdsDefault)
    match items with
    | [] => failure
    | [item] => return .paren item
    | items => return .paren (.sequence items)

def genericArrow (g : Grammar) (async : Bool) : Parse Node := do
  let generic ← typeParameters g .ofFunction
  require !generic.isEmpty
  let start ← position
  require (← atMark .openParen)
  match ← inMode (fun m => { m with arrowStart := some start }) (parenthesized g start async) with
  | .arrow (.form .arrow [.scope f names parts]) =>
    return .form .arrow [.scope f names (parts ++ generic)]
  | _ => failure

def asyncExpression (g : Grammar) : Parse Node := do
  let start ← position
  let allowed ← arrowAllowed start
  let next ← ahead
  match next.token with
  | .word "function" false =>
    if next.newline then plain
    else
      advance
      functionExpression g true
  | .word w _ =>
    if allowed && !next.newline && !isReserved w then
      match ← attempt (do
          advance
          let name ← bindingName
          arrowFrom g true [.form .parameter [.name name]] []) with
      | some arrow => return arrow
      | none => plain
    else plain
  | .mark .less =>
    if allowed && (← hasTypes) && !next.newline then
      match ← attempt (do advance; genericArrow g true) with
      | some arrow => return arrow
      | none => plain
    else plain
  | .mark .openParen =>
    if allowed && !next.newline then
      advance
      match ← inMode (fun m => { m with arrowStart := some next.span.start })
          (parenthesized g next.span.start true) with
      | .arrow node => return node
      | .list items =>
        require !(items.any fun i => i.node.holdsDefault)
        return .call (.name "async") (items.map fun i => match i.node with
          | .form .spread [inner] => .argument true i.span inner
          | node => .argument false i.span node) []
    else plain
  | _ => plain
where
  plain : Parse Node := do
    let start ← position
    advance
    if (← arrowAllowed start) && !(← newline) && (← atMark .arrow) then
      arrowFrom g false [.form .parameter [.name "async"]] []
    else return .name "async"

def nameOrArrow (g : Grammar) : Parse Node := do
  let start ← position
  let name ← identifier
  if (← arrowAllowed start) && !(← newline) && (← atMark .arrow) then
    if isRestricted name then refuseStrict
    arrowFrom g false [.form .parameter [.name name]] []
  else return .name name

/-! ## Primary expressions -/

def plainPrimary (g : Grammar) : Parse Node := do
  match ← token with
  | .number | .text _ =>
    advance
    return leaf
  | .privateWord _ => privateName
  | .mark .slash | .mark .slashAssign => regex
  | .mark .backquote => plainTemplate g
  | .mark .openParen => parenExpression g
  | .mark .openBracket => arrayLiteral g
  | .mark .openBrace => objectLiteral g
  | .word w false =>
    if w == "function" then functionExpression g false
    else if w == "class" then classExpression g [] false
    else if ["this", "null", "true", "false"].contains w then
      advance
      return .form .keyword []
    else if w == "async" then asyncExpression g
    else nameOrArrow g
  | .word _ true => nameOrArrow g
  | _ => failure

def primary (g : Grammar) : Parse Node := do
  if !(← atMark .at) then return ← plainPrimary g
  let marks ← decorators g
  if ← atWord "class" then classExpression g marks false else plainPrimary g

def superExpression (g : Grammar) (calls : Bool) : Parse Node := do
  expectWord "super"
  let m ← read
  match ← token with
  | .mark .dot =>
    require (m.superProperty || m.dialect.types)
    advance
    let _ ← anyWord
    return .form .superMember []
  | .mark .openBracket =>
    require (m.superProperty || m.dialect.types)
    advance
    let key ← withIn (g .expression)
    expect .closeBracket
    return .form .superMember [key]
  | .mark .openParen =>
    require (calls && (m.superCall || m.dialect.types))
    return .form .superCall (← arguments g)
  | _ => failure

def importExpression (g : Grammar) (calls : Bool) : Parse Node := do
  expectWord "import"
  if ← eat .dot then
    expectWord "meta"
    noteModule
    return .form .metaProperty []
  require calls
  return .form .importCall (← arguments g)

def newExpression (g : Grammar) : Parse Node := do
  expectWord "new"
  if ← eat .dot then
    expectWord "target"
    require (← read).newTarget
    return .form .metaProperty []
  let callee ← inMode (fun m => { m with arrowStart := none }) (g .constructed)
  let types ← if (← hasTypes) && (← atMark .less) then
      pure ((← attempt (typeArguments g)).getD [])
    else pure []
  let found ← if ← atMark .openParen then arguments g else pure []
  return .form .construct (callee :: found ++ types)

/-! ## Member accesses and calls -/

def startsExpression : Token → Bool
  | .word w escaped => escaped || (w != "in" && w != "instanceof" && w != "as" && w != "satisfies")
  | .privateWord _ | .number | .text _ => true
  | .mark m => [Mark.openParen, .openBracket, .openBrace, .plus, .minus, .bang, .tilde, .increment,
      .decrement, .backquote, .at, .less, .slash, .slashAssign].contains m
  | _ => false

def endsTypeArguments : Parse Bool := do
  let c ← get
  match c.token with
  | .mark .less | .mark .greater | .mark .plus | .mark .minus => return false
  | .mark .slash | .mark .slashAssign => return true
  | t => return c.newline || !startsExpression t

def appliedTypes (g : Grammar) (target : Node) (calls : Bool) : Parse Node := do
  let types ← typeArguments g
  let c ← get
  match c.token with
  | .mark .openParen =>
    require calls
    let found ← arguments g
    return if target.isChain then .form .chainCall (target :: found ++ types)
      else .call target found types
  | .mark .backquote =>
    require !target.isChain
    let (parts, _) ← template (withIn (g .expression))
    return .form .tagged (target :: parts ++ types)
  | _ =>
    require (← endsTypeArguments)
    return .form .cast (target :: types)

def dottedMember (target : Node) (chain : Bool) : Parse Node := do
  match ← token with
  | .privateWord _ =>
    let name ← privateName
    return .form (if chain then .chain else .privateMember) [target, name]
  | _ =>
    let property ← anyWord
    return if chain then .form .chain [target] else .dotted target property

def indexed (g : Grammar) (target : Node) (chain : Bool) : Parse Node := do
  expect .openBracket
  let key ← withIn (g .expression)
  expect .closeBracket
  return .form (if chain then .chain else .index) [target, key]

def subscript (g : Grammar) (calls : Bool) (target : Node) : Parse (Option Node) := do
  let types ← hasTypes
  match ← token with
  | .mark .dot =>
    advance
    return some (← dottedMember target target.isChain)
  | .mark .openBracket => return some (← indexed g target target.isChain)
  | .mark .openParen =>
    if !calls then return none
    let found ← arguments g
    return some (if target.isChain then .form .chainCall (target :: found)
      else .call target found [])
  | .mark .optionalDot =>
    require calls
    advance
    match ← token with
    | .mark .openBracket => return some (← indexed g target true)
    | .mark .openParen => return some (.form .chainCall (target :: (← arguments g)))
    | .mark .less =>
      require types
      let generic ← typeArguments g
      return some (.form .chainCall (target :: (← arguments g) ++ generic))
    | _ => return some (← dottedMember target true)
  | .mark .backquote =>
    require !target.isChain
    let (parts, _) ← template (withIn (g .expression))
    return some (.form .tagged (target :: parts))
  | .mark .bang =>
    if !types || (← newline) then return none
    advance
    return some (.form .nonNull [target])
  | .mark .less =>
    if !types then return none
    attempt (appliedTypes g target calls)
  | _ => return none

def decoratorExpression (g : Grammar) : Parse Node := do
  let isThis ← if ← hasTypes then atWord "this" else pure false
  let head ← if isThis then do
      advance
      pure (Node.form .keyword [])
    else do
      require !(← atWord "await")
      pure (Node.name (← identifier))
  extend (fun target => do
    if ← atMark .openBracket then return none
    if (← hasTypes) && (← atMark .less) then
      let types ← typeArguments g
      return some (.call target (← arguments g) types)
    subscript g true target) head

def operandHead (g : Grammar) (calls : Bool) : Parse Node := do
  match ← token with
  | .word "new" false => newExpression g
  | .word "super" false => superExpression g calls
  | .word "import" false => importExpression g calls
  | _ => primary g

def leftHand (g : Grammar) : Parse Node := do
  let head ← operandHead g true
  if head.isArrow then return head
  extend (subscript g true) head

def constructed (g : Grammar) : Parse Node := do
  let head ← operandHead g false
  require !head.isArrow
  extend (subscript g false) head

/-! ## Operators -/

def postfixExpression (g : Grammar) : Parse Node := do
  if (← read).dialect.markup && (← atMark .less) then
    let element ← g .markup
    expect .greater
    return element
  let operand ← leftHand g
  if operand.isArrow || (← newline) then return operand
  if (← atMark .increment) || (← atMark .decrement) then
    require operand.isPlace
    checkTarget operand
    advance
    return .form .update [operand]
  return operand

def atOperandEnd : Parse Bool := do
  match ← token with
  | .mark .closeParen | .mark .closeBracket | .mark .comma => return true
  | _ => atStatementEnd

/-- The operator `await`, or outside asynchronous code a name where no operand follows. As an
operator outside of functions it makes the file a module. -/
def awaitExpression (g : Grammar) : Parse Node := do
  let m ← read
  expectWord "await"
  if !m.async && (← atOperandEnd) then
    require !m.inModule
    return .name "await"
  require (m.async || !m.inFunction)
  require !m.inParameters
  if !m.inFunction then noteModule
  return .form .awaiting [← g .unary]

def isBareName : Node → Bool
  | .name _ => true
  | _ => false

def unary (g : Grammar) : Parse Node := do
  let d := (← read).dialect
  match ← token with
  | .mark .increment | .mark .decrement =>
    advance
    let operand ← g .unary
    require operand.isPlace
    checkTarget operand
    return .form .update [operand]
  | .mark .plus | .mark .minus | .mark .bang | .mark .tilde =>
    advance
    return .form .unary [← g .unary]
  | .mark .less =>
    if d.types && !d.markup then
      advance
      let types ← if ← eatWord "const" then pure [] else pure [← g .type]
      expect .greater
      let start ← position
      let operand ← inMode (fun m => { m with arrowStart := some start }) (g .unary)
      return .form .cast (operand :: types)
    else postfixExpression g
  | .word w false =>
    if w == "typeof" || w == "void" then
      advance
      return .form .unary [← g .unary]
    else if w == "delete" then
      advance
      let operand ← g .unary
      if isBareName operand then sloppyOnly
      return .form .unary [operand]
    else if w == "await" then awaitExpression g
    else postfixExpression g
  | _ => postfixExpression g

structure Operator where
  form : Form
  precedence : Nat
  length : Nat

def operator? : Parse (Option Operator) := do
  let c ← get
  let length := c.span.stop - c.span.start
  match c.token with
  | .mark .coalesce => return some ⟨.coalesce, 1, length⟩
  | .mark .logicalOr => return some ⟨.logical, 1, length⟩
  | .mark .logicalAnd => return some ⟨.logical, 2, length⟩
  | .mark .bar => return some ⟨.binary, 3, length⟩
  | .mark .caret => return some ⟨.binary, 4, length⟩
  | .mark .ampersand => return some ⟨.binary, 5, length⟩
  | .mark .equality => return some ⟨.binary, 6, length⟩
  | .word "instanceof" false => return some ⟨.binary, 7, length⟩
  | .word "in" false =>
    return if (← read).allowIn then some ⟨.inCheck, 7, length⟩ else none
  | .mark .less =>
    match c.here with
    | '<' :: '<' :: '=' :: _ => return none
    | '<' :: '<' :: _ => return some ⟨.binary, 8, 2⟩
    | '<' :: '=' :: _ => return some ⟨.binary, 7, 2⟩
    | _ => return some ⟨.binary, 7, 1⟩
  | .mark .greater =>
    match c.here with
    | '>' :: '>' :: '>' :: '=' :: _ => return none
    | '>' :: '>' :: '=' :: _ => return none
    | '>' :: '>' :: '>' :: _ => return some ⟨.binary, 8, 3⟩
    | '>' :: '>' :: _ => return some ⟨.binary, 8, 2⟩
    | '>' :: '=' :: _ => return some ⟨.binary, 7, 2⟩
    | _ => return some ⟨.binary, 7, 1⟩
  | .mark .plus | .mark .minus => return some ⟨.binary, 9, length⟩
  | .mark .star | .mark .slash | .mark .percent => return some ⟨.binary, 10, length⟩
  | .mark .power => return some ⟨.power, 11, length⟩
  | _ => return none

def isLogical : Node → Bool
  | .form .logical _ => true
  | _ => false

def isCoalesce : Node → Bool
  | .form .coalesce _ => true
  | _ => false

/-- An operand that the power operator does not take on its left. -/
def isSigned : Node → Bool
  | .form .unary _ => true
  | .form .awaiting _ => true
  | _ => false

def takeOperator (o : Operator) : Parse Unit := do
  let c ← get
  if c.token == .mark .less || c.token == .mark .greater then
    resume (c.here.drop o.length) (c.span.start + o.length)
  else advance

def operation (g : Grammar) (precedence : Nat) (left : Node) : Parse (Option Node) := do
  if left.isArrow then return none
  let castWord := ((← atWord "as") || (← atWord "satisfies")) && (← hasTypes) && !(← newline)
  if castWord then
    if precedence < 7 then
      advance
      if ← eatWord "const" then return some (.form .constCast [left])
      return some (.form .cast [left, ← g .type])
    else return none
  match ← operator? with
  | none => return none
  | some o =>
    if o.precedence ≤ precedence then return none
    require !(o.form == .power && isSigned left)
    takeOperator o
    let right ← inMode (fun m => { m with arrowStart := none })
      (g (.operation (if o.form == .power then o.precedence - 1 else o.precedence)))
    require !(o.form == .coalesce && (isLogical left || isLogical right))
    require !(o.form == .logical && (isCoalesce left || isCoalesce right))
    return some (.form o.form [left, right])

def operations (g : Grammar) (precedence : Nat) : Parse Node := do
  extend (operation g precedence) (← g .unary)

/-! ## Assignments -/

def yieldExpression (g : Grammar) : Parse Node := do
  require !(← read).inParameters
  expectWord "yield"
  if ← newline then return .form .yielding []
  if ← eat .star then return .form .yielding [← g .assignment]
  if startsExpression (← token) then return .form .yielding [← g .assignment]
  return .form .yielding []

def endsAssignment : Node → Bool
  | .form f _ => [Form.arrow, .conditional, .binary, .inCheck, .power, .logical, .coalesce, .unary,
      .update].contains f
  | _ => false

def plainAssignment (g : Grammar) : Parse Node := do
  let start ← position
  let test ← inMode (fun m => { m with arrowStart := some start }) (operations g 0)
  if test.isArrow then return test
  let whole ← if ← atMark .question then conditionalRest g test else pure test
  if endsAssignment whole then return whole
  assignmentRest g whole

def assignment (g : Grammar) : Parse Node := do
  let m ← read
  if m.generator && (← atWord "yield") then return ← yieldExpression g
  if m.dialect.types && (← atMark .less) then
    if m.dialect.markup then
      match ← attempt (plainAssignment g) with
      | some node => return node
      | none => pure ()
    match ← attempt (genericArrow g false) with
    | some arrow => return arrow
    | none => pure ()
  plainAssignment g

def expression (g : Grammar) : Parse Node := do
  let first ← g .assignment
  if !(← atMark .comma) then return first
  let more ← many do if ← eat .comma then return some (← g .assignment) else return none
  return .sequence (first :: more)

end BundlePrep.Script.Parse
