import BundlePrep.Script.Tree

/-!
# Expressions as targets

An expression to the left of an assignment, and the parameters of an arrow function, are read as
expressions first. Array and object literals become patterns; any other target of an assignment
has to be a place that can be assigned to, and a parameter has to be a name.
-/

set_option autoImplicit false

namespace BundlePrep.Script.Node

def isChain : Node → Bool
  | .form .chain _ => true
  | .form .chainCall _ => true
  | .form .nonNull [inner] => inner.isChain
  | _ => false

def isArrow : Node → Bool
  | .form .arrow _ => true
  | _ => false

def isPlace : Node → Bool
  | .name _ => true
  | .dotted _ _ => true
  | .form .index _ => true
  | .form .privateMember _ => true
  | .form .superMember _ => true
  | .paren inner => inner.isPlace
  | .form .nonNull [inner] => inner.isPlace
  | .form .cast (inner :: _) => inner.isPlace
  | _ => false

mutual
/-- Whether a target assigns to a name of a kind that stands at a place of its own: a property
without a colon does not count. -/
def assigns (kind : String → Bool) : Node → Bool
  | .name text => kind text
  | .paren inner => assigns kind inner
  | .form .nonNull [inner] => assigns kind inner
  | .form .cast (inner :: _) => assigns kind inner
  | .form .patternProperty [_, value] => assigns kind value
  | .form .withDefault (target :: _) => assigns kind target
  | .form .arrayPattern parts => anyAssigns kind parts
  | .form .objectPattern parts => anyAssigns kind parts
  | .form .rest parts => anyAssigns kind parts
  | _ => false

def anyAssigns (kind : String → Bool) : List Node → Bool
  | [] => false
  | p :: ps => assigns kind p || anyAssigns kind ps
end

mutual
def isBinding : Node → Bool
  | .name _ => true
  | .form .objectPattern parts => areBindings parts
  | .form .arrayPattern parts => areBindings parts
  | .form .patternProperty [_, value] => isBinding value
  | .form .shorthand _ => true
  | .form .shorthandDefault _ => true
  | .form .hole _ => true
  | .form .withDefault [target, _] => isBinding target
  | .form .rest [target] => isBinding target
  | _ => false

def areBindings : List Node → Bool
  | [] => true
  | p :: ps => isBinding p && areBindings ps
end

def isElementPlace : Node → Bool
  | .form .nonNull _ => false
  | n => n.isPlace

mutual
def asElement : Node → Option Node
  | .form .array parts => (asElements parts).map (.form .arrayPattern)
  | .form .object parts => (asElements parts).map (.form .objectPattern)
  | .form .assign (target :: value) => some (.form .withDefault (target :: value))
  | n => if n.isElementPlace then some n else none

def asElements : List Node → Option (List Node)
  | [] => some []
  | [.form .spread [inner]] => do
    match inner with
    | .form .assign _ => none
    | _ => return [.form .rest [← asElement inner]]
  | [.form .trailingComma _] => some []
  | .form .hole parts :: ps => (asElements ps).map (.form .hole parts :: ·)
  | .form .shorthand parts :: ps => (asElements ps).map (.form .shorthand parts :: ·)
  | .form .shorthandDefault parts :: ps => (asElements ps).map (.form .shorthandDefault parts :: ·)
  | .form .property [key, value] :: ps => do
    let value ← asElement value
    return .form .patternProperty [key, value] :: (← asElements ps)
  | .form .spread _ :: _ => none
  | p :: ps => do
    let p ← asElement p
    return p :: (← asElements ps)
end

def asTarget : Node → Option Node
  | .form .array parts => asElement (.form .array parts)
  | .form .object parts => asElement (.form .object parts)
  | n => if n.isPlace then some n else none

def asParameter (n : Node) : Option Node :=
  let pattern : Option Node := match n with
    | .form .parameter parts => some (.form .parameter parts)
    | .form .spread [.form .assign _] => none
    | .form .spread [inner] =>
      (asElement inner).map fun p => .form .parameter [.form .rest [p]]
    | n => (asElement n).map fun p => .form .parameter [p]
  pattern.filter fun p => match p with
    | .form .parameter parts => (parts.getLast?.map isBinding).getD false
    | _ => false

def holdsDefault : Node → Bool
  | .form .object parts => parts.any fun p => match p with
    | .form .shorthandDefault _ => true
    | _ => false
  | _ => false

end BundlePrep.Script.Node
