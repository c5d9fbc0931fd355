import BundlePrep.Script.Tree

/-!
# Binding private names

A class body binds the private names of its members. A use of a private name is bound by the
innermost class body around it that has a member of that name; the decorators of a class and the
expression it extends stand outside its body. Every pair of a class and one of its names gets a
number of its own, in the order in which the classes are visited and, inside a class, in the order
of first declaration.
-/

set_option autoImplicit false

namespace BundlePrep.PrivateName

open BundlePrep.Script

abbrev Bindings := List (String × Nat)

abbrev Environment := List Bindings

def Environment.lookup (env : Environment) (name : String) : Option Nat :=
  env.findSome? fun bindings => bindings.lookup name

structure Use where
  name : String
  span : Span
  /-- Whether it is the left operand of `in`. -/
  quoted : Bool
  number : Option Nat
  deriving DecidableEq, Repr

/-- What a walk finds: the uses in the order of the walk, the next free number, and how many classes
declare private names. -/
structure Found where
  uses : List Use
  next : Nat
  classes : Nat
  deriving Repr

def declaredNames (members : List Node) : List String :=
  (members.filterMap Node.privateKey?).eraseDups

def bind (next : Nat) (members : List Node) : Bindings :=
  (declaredNames members).zipIdx next

def Found.append (a b : Found) : Found := ⟨a.uses ++ b.uses, b.next, a.classes + b.classes⟩

def useAt (env : Environment) (next : Nat) (name : String) (span : Span) (quoted : Bool) : Found :=
  ⟨[⟨name, span, quoted, env.lookup name⟩], next, 0⟩

mutual
/-- The walk over a node. The types of a class are no code and are left out. -/
def walk (env : Environment) (next : Nat) : Node → Found
  | .name _ | .importing _ _ => ⟨[], next, 0⟩
  | .privateName name span => useAt env next name span false
  | .form .inCheck [.privateName name span, right] =>
    (useAt env next name span true).append (walk env next right)
  | .dotted object _ => walk env next object
  | .call callee arguments types =>
    let a := walk env next callee
    let b := walkAll env a.next arguments
    (a.append b).append (walkAll env b.next types)
  | .argument _ _ value => walk env next value
  | .paren inner => walk env next inner
  | .sequence parts => walkAll env next parts
  | .scope _ _ parts => walkAll env next parts
  | .declare _ _ parts => walkAll env next parts
  | .classBody decorators heritage members _ =>
    let a := walkAll env next decorators
    let b := walkAll env a.next heritage
    let bindings := bind b.next members
    let c := walkAll (bindings :: env) (b.next + bindings.length) members
    (a.append b).append { c with classes := c.classes + if bindings.isEmpty then 0 else 1 }
  | .form _ parts => walkAll env next parts

def walkAll (env : Environment) (next : Nat) : List Node → Found
  | [] => ⟨[], next, 0⟩
  | p :: ps =>
    let a := walk env next p
    a.append (walkAll env a.next ps)
end

def resolve (program : Program) : Found := walkAll [] 0 program.body

theorem length_bind (next : Nat) (members : List Node) :
    (bind next members).length = (declaredNames members).length := by
  simp [bind]

end BundlePrep.PrivateName
