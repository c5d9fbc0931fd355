import BundlePrep.Script.Token

/-!
# Program trees

A tree keeps apart what the passes over a program look at: names and private names, member
accesses by name, calls with their arguments, classes, scopes and the declarations in them, and
imports. All else is a form with parts, in the order in which the passes visit them.
-/

set_option autoImplicit false

namespace BundlePrep.Script

inductive Form where
  | literal | keyword | template | tagged | array | hole | trailingComma | object | property
  | shorthand | shorthandDefault | methodProperty | accessorProperty | spread | key | computedKey
  | unary | update | awaiting | yielding | binary | inCheck | power | logical | coalesce
  | conditional | assign | compoundAssign | index | privateMember | superMember | superCall
  | chain | chainCall | construct | importCall | metaProperty | nonNull | cast | constCast | arrow
  | functionExpression | classExpression | decorator | member | staticBlock | emptyMember
  | objectPattern | arrayPattern | patternProperty | withDefault | rest | parameter
  | type | markup | statement | switchBody | using | variable | namespace | namespaceBody | enumBody
  | importAlias | exportList
  deriving DecidableEq, Repr

structure ImportBinding where
  /-- The name under which the module is imported. -/
  bound : String
  /-- The exported name it stands for, or none for the module as a whole. -/
  exported : Option String
  deriving DecidableEq, Repr

inductive Node where
  | name (text : String)
  /-- A `#` name with the bytes of its token. -/
  | privateName (text : String) (span : Span)
  /-- `object.property`. -/
  | dotted (object : Node) (property : String)
  | call (callee : Node) (arguments : List Node) (types : List Node)
  /-- An argument with the bytes of its expression. -/
  | argument (spread : Bool) (span : Span) (value : Node)
  | paren (inner : Node)
  | sequence (parts : List Node)
  /-- A scope with the names of its parameters; a function scope receives `var` declarations. -/
  | scope (function : Bool) (names : List String) (parts : List Node)
  /-- Names that come into the scope around, or into the function scope around if hoisted. -/
  | declare (hoisted : Bool) (names : List String) (parts : List Node)
  /-- A class: its decorators, the expression it extends, its members, and its types. -/
  | classBody (decorators heritage members types : List Node)
  | importing (source : String) (bindings : List ImportBinding)
  | form (form : Form) (parts : List Node)
  deriving Inhabited

namespace Node

def privateKey? : Node → Option String
  | .form .member (.privateName text _ :: _) => some text
  | _ => none

mutual
def boundNames : Node → List String
  | .name text => [text]
  | .form .objectPattern parts => boundNamesAll parts
  | .form .arrayPattern parts => boundNamesAll parts
  | .form .patternProperty (_ :: parts) => boundNamesAll parts
  | .form .shorthand (.name text :: _) => [text]
  | .form .shorthandDefault (.name text :: _) => [text]
  | .form .withDefault (target :: _) => boundNames target
  | .form .rest parts => boundNamesAll parts
  | .form .parameter parts => boundNamesLast parts
  | _ => []

def boundNamesAll : List Node → List String
  | [] => []
  | p :: ps => boundNames p ++ boundNamesAll ps

/-- The names of the last pattern: the decorators of a parameter stand before it. -/
def boundNamesLast : List Node → List String
  | [] => []
  | [p] => boundNames p
  | _ :: p :: ps => boundNamesLast (p :: ps)
end

/-! ## Trees can be compared -/

mutual
def same : Node → Node → Bool
  | .name a, .name b => a == b
  | .privateName a span, .privateName b span' => a == b && span == span'
  | .dotted a p, .dotted b q => same a b && p == q
  | .call a as ts, .call b bs us => same a b && sameAll as bs && sameAll ts us
  | .argument spread span a, .argument spread' span' b =>
    spread == spread' && span == span' && same a b
  | .paren a, .paren b => same a b
  | .sequence as, .sequence bs => sameAll as bs
  | .scope f ns as, .scope g ms bs | .declare f ns as, .declare g ms bs =>
    f == g && ns == ms && sameAll as bs
  | .classBody as bs cs ds, .classBody as' bs' cs' ds' =>
    sameAll as as' && sameAll bs bs' && sameAll cs cs' && sameAll ds ds'
  | .importing a xs, .importing b ys => a == b && xs == ys
  | .form f as, .form g bs => f == g && sameAll as bs
  | _, _ => false

def sameAll : List Node → List Node → Bool
  | [], [] => true
  | a :: as, b :: bs => same a b && sameAll as bs
  | _, _ => false
end

mutual
theorem same_self : (n : Node) → same n n = true
  | .name _ | .privateName _ _ | .importing _ _ => by simp [same]
  | .dotted a _ | .argument _ _ a | .paren a => by simp [same, same_self a]
  | .call a as ts => by simp [same, same_self a, sameAll_self as, sameAll_self ts]
  | .sequence as | .scope _ _ as | .declare _ _ as | .form _ as => by
    simp [same, sameAll_self as]
  | .classBody as bs cs ds => by
    simp [same, sameAll_self as, sameAll_self bs, sameAll_self cs, sameAll_self ds]

theorem sameAll_self : (ns : List Node) → sameAll ns ns = true
  | [] => rfl
  | n :: ns => by simp [sameAll, same_self n, sameAll_self ns]
end

mutual
theorem eq_of_same : (a b : Node) → same a b = true → a = b
  | .name _, b, h | .privateName _ _, b, h | .importing _ _, b, h => by
    cases b <;> simp_all [same]
  | .dotted a _, b, h => by
    cases b <;> simp only [same, Bool.false_eq_true, Bool.and_eq_true, beq_iff_eq] at h
    rw [eq_of_same a _ h.1, h.2]
  | .argument _ _ a, b, h => by
    cases b <;> simp only [same, Bool.false_eq_true, Bool.and_eq_true, beq_iff_eq] at h
    rw [h.1.1, h.1.2, eq_of_same a _ h.2]
  | .paren a, b, h => by
    cases b <;> simp only [same, Bool.false_eq_true] at h
    rw [eq_of_same a _ h]
  | .call a as ts, b, h => by
    cases b <;> simp only [same, Bool.false_eq_true, Bool.and_eq_true] at h
    rw [eq_of_same a _ h.1.1, eq_of_sameAll as _ h.1.2, eq_of_sameAll ts _ h.2]
  | .sequence as, b, h => by
    cases b <;> simp only [same, Bool.false_eq_true] at h
    rw [eq_of_sameAll as _ h]
  | .scope _ _ as, b, h | .declare _ _ as, b, h => by
    cases b <;> simp only [same, Bool.false_eq_true, Bool.and_eq_true, beq_iff_eq] at h
    rw [h.1.1, h.1.2, eq_of_sameAll as _ h.2]
  | .form _ as, b, h => by
    cases b <;> simp only [same, Bool.false_eq_true, Bool.and_eq_true, beq_iff_eq] at h
    rw [h.1, eq_of_sameAll as _ h.2]
  | .classBody as bs cs ds, b, h => by
    cases b <;> simp only [same, Bool.false_eq_true, Bool.and_eq_true] at h
    rw [eq_of_sameAll as _ h.1.1.1, eq_of_sameAll bs _ h.1.1.2, eq_of_sameAll cs _ h.1.2,
      eq_of_sameAll ds _ h.2]

theorem eq_of_sameAll : (as bs : List Node) → sameAll as bs = true → as = bs
  | [], bs, h => by cases bs <;> simp_all [sameAll]
  | a :: as, bs, h => by
    cases bs <;> simp only [sameAll, Bool.false_eq_true, Bool.and_eq_true] at h
    rw [eq_of_same a _ h.1, eq_of_sameAll as _ h.2]
end

instance : DecidableEq Node := fun a b =>
  decidable_of_iff (same a b = true) ⟨eq_of_same a b, fun h => h ▸ same_self a⟩

end Node

/-- A parsed file. A module has imports or exports, and its code is strict. -/
structure Program where
  isModule : Bool
  body : List Node
  deriving Inhabited, DecidableEq

end BundlePrep.Script
