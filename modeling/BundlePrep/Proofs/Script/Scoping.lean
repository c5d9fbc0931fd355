import BundlePrep.Proofs.Script.Place

/-!
# Scopes and the names in them

A rule of scoping says which nodes open a scope around what stands below them, which names a scope has
of its own, and which nodes declare names. A declared name comes into the innermost scope around it,
or into the innermost one of a function if it is hoisted. The rule of the language is one of them.
-/

set_option autoImplicit false

namespace BundlePrep.Script

/-! ## The order of places -/

def Step.kind : Step → Nat
  | .decorator _ => 0
  | .member _ => 1
  | .heritage _ => 2
  | .type _ => 3
  | .part _ => 4

def Step.Before (s t : Step) : Prop := s.kind < t.kind ∨ s.kind = t.kind ∧ s.index < t.index

instance (s t : Step) : Decidable (s.Before t) :=
  inferInstanceAs (Decidable (s.kind < t.kind ∨ s.kind = t.kind ∧ s.index < t.index))

/-- A place is reached before another one: a node before its parts, and these one behind the other. -/
def Place.Before : Place → Place → Prop
  | _, [] => False
  | [], _ :: _ => True
  | s :: p, t :: q => s.Before t ∨ s = t ∧ Place.Before p q

instance decidableBefore : (p q : Place) → Decidable (Place.Before p q)
  | [], [] | _ :: _, [] => .isFalse not_false
  | [], _ :: _ => .isTrue trivial
  | s :: p, t :: q =>
    have := decidableBefore p q
    inferInstanceAs (Decidable (s.Before t ∨ s = t ∧ Place.Before p q))

/-! ## Rules of scoping -/

structure Scoping where
  /-- The scope that a node opens around a place below it: whether hoisted names come into it. -/
  around? : Node → Place → Option Bool
  /-- The names that the scope of a node has of its own. -/
  own : Node → List String
  /-- The names that a node declares, and whether they are hoisted. -/
  declared? : Node → Option (Bool × List String)

namespace Scoping

def takes (hoisted function : Bool) : Bool := function || !hoisted

variable (rule : Scoping)

/-- The scopes around a place, innermost first: where they are opened, and whether hoisted names come
into them. -/
def scopesOn (n : Node) : Place → List (Place × Bool)
  | [] => []
  | s :: q =>
    match n.child? s with
    | none => []
    | some m => (scopesOn m q).map (fun scope => (s :: scope.1, scope.2)) ++
        ((rule.around? n (s :: q)).map fun function => ([], function)).toList

/-- The scope that names come into which are declared at a place. -/
def home? (root : Node) (hoisted : Bool) (place : Place) : Option Place :=
  ((rule.scopesOn root place).find? fun scope => takes hoisted scope.2).map Prod.fst

/-- A name is declared at a place. -/
def DeclaresAt (root : Node) (place : Place) (hoisted : Bool) (name : String) : Prop :=
  ∃ n names, root.at? place = some n ∧ rule.declared? n = some (hoisted, names) ∧ name ∈ names

/-- A scope around a place has a name, of its own or by a declaration that counts. -/
def Hides (counts : Place → Prop) (root : Node) (place : Place) (name : String) : Prop :=
  ∃ scope ∈ (rule.scopesOn root place).map Prod.fst,
    (∃ n, root.at? scope = some n ∧ name ∈ rule.own n) ∨
      ∃ p hoisted, counts p ∧ rule.DeclaresAt root p hoisted name ∧
        rule.home? root hoisted p = some scope

def namesAt (names : Node → List String) (root : Node) (place : Place) : List String :=
  (root.at? place).elim [] names

def declaredAt (root : Node) (place : Place) (hoisted : Bool) : List String :=
  namesAt (fun n => match rule.declared? n with
    | some (h, names) => if h = hoisted then names else []
    | none => []) root place

theorem mem_namesAt {names : Node → List String} {root : Node} {place : Place} {name : String} :
    name ∈ namesAt names root place ↔ ∃ n, root.at? place = some n ∧ name ∈ names n := by
  cases h : root.at? place <;> simp [namesAt, h]

theorem mem_declaredAt {root : Node} {place : Place} {hoisted : Bool} {name : String} :
    name ∈ rule.declaredAt root place hoisted ↔ rule.DeclaresAt root place hoisted name := by
  rw [declaredAt, mem_namesAt, DeclaresAt]
  refine exists_congr fun n => ?_
  cases h : rule.declared? n with
  | none => simp
  | some found =>
    obtain ⟨hoisted', names⟩ := found
    by_cases same : hoisted' = hoisted <;> simp [same]

instance (counts : Place → Prop) [DecidablePred counts] (root : Node) (place : Place)
    (name : String) : Decidable (rule.Hides counts root place name) :=
  decidable_of_iff (∃ scope ∈ (rule.scopesOn root place).map Prod.fst,
    name ∈ namesAt rule.own root scope ∨ ∃ p ∈ root.places, ∃ hoisted, counts p ∧
      name ∈ rule.declaredAt root p hoisted ∧ rule.home? root hoisted p = some scope) (by
    simp only [Hides, mem_namesAt, mem_declaredAt]
    refine exists_congr fun scope => and_congr_right fun _ => or_congr_right ?_
    constructor
    · rintro ⟨p, -, hoisted, found⟩
      exact ⟨p, hoisted, found⟩
    · rintro ⟨p, hoisted, found⟩
      obtain ⟨n, names, at_, -⟩ := found.2.1
      exact ⟨p, Node.mem_places at_, hoisted, found⟩)

section

variable {rule} {n m : Node} {s : Step} {q : Place} {hoisted : Bool} {name : String}

theorem scopesOn_cons (child : n.child? s = some m) :
    rule.scopesOn n (s :: q) = (rule.scopesOn m q).map (fun scope => (s :: scope.1, scope.2)) ++
      ((rule.around? n (s :: q)).map fun function => ([], function)).toList := by
  rw [scopesOn, child]

theorem home?_cons (child : n.child? s = some m) :
    rule.home? n hoisted (s :: q) = ((rule.home? m hoisted q).map (s :: ·)).or
      (if (rule.around? n (s :: q)).any (takes hoisted) then some [] else none) := by
  have own : (((rule.around? n (s :: q)).map fun function => (([] : Place), function)).toList.find?
      fun scope => takes hoisted scope.2).map Prod.fst =
        if (rule.around? n (s :: q)).any (takes hoisted) then some [] else none := by
    cases rule.around? n (s :: q) with
    | none => rfl
    | some function => cases taken : takes hoisted function <;> simp [taken]
  rw [home?, scopesOn_cons child, List.find?_append, Option.map_or, own, List.find?_map, home?,
    Option.map_map, Option.map_map]
  rfl

theorem declaresAt_nil : rule.DeclaresAt n [] hoisted name ↔
    ∃ names, rule.declared? n = some (hoisted, names) ∧ name ∈ names := by
  simp [DeclaresAt, Node.at?_nil]

theorem declaresAt_cons (child : n.child? s = some m) :
    rule.DeclaresAt n (s :: q) hoisted name ↔ rule.DeclaresAt m q hoisted name := by
  simp [DeclaresAt, Node.at?_cons, child]

theorem DeclaresAt.child (h : rule.DeclaresAt n (s :: q) hoisted name) :
    ∃ m, n.child? s = some m ∧ rule.DeclaresAt m q hoisted name := by
  obtain ⟨x, names, at_, declared⟩ := h
  obtain ⟨m, child, under⟩ := Node.child?_of_at? at_
  exact ⟨m, child, x, names, under, declared⟩

end

/-! ## The rule of the language -/

def isMark (parts : List Node) : Place → Bool
  | .part i :: q =>
    match parts[i]?, q with
    | some (.form .decorator _), _ => true
    | some (.form .parameter marks), .part j :: _ =>
      match marks[j]? with
      | some (.form .decorator _) => true
      | _ => false
    | _, _ => false
  | _ => false

/-- The scopes of the language. What a `switch` looks at, the key of an accessor and the decorators
of a class stand outside of the scope. -/
def lexicalAround? : Node → Place → Option Bool
  | .scope function _ parts, p => if isMark parts p then none else some function
  | .form .switchBody _, .part (_ + 1) :: _ => some false
  | .form .staticBlock _, _ => some true
  | .form .accessorProperty _, .part (_ + 1) :: _ => some true
  | .form .namespaceBody _, _ => some true
  | .form .functionExpression (.name _ :: _), _ => some false
  | .form .classExpression (.name _ :: _), .part _ :: .decorator _ :: _ => none
  | .form .classExpression (.name _ :: _), _ => some false
  | _, _ => none

/-- Parameters, and the own names of function and class expressions. -/
def lexicalOwn : Node → List String
  | .scope _ names _ => names
  | .form .accessorProperty (_ :: parts) => Node.boundNamesAll parts
  | .form .functionExpression (.name name :: _) => [name]
  | .form .classExpression (.name name :: _) => [name]
  | _ => []

def variableNames : Node → List String
  | .form .variable (pattern :: _) => Node.boundNames pattern
  | _ => []

def lexicalDeclared? : Node → Option (Bool × List String)
  | .declare hoisted names _ => some (hoisted, names)
  | .form .using found => some (false, found.flatMap variableNames)
  | .form .enumBody (.name name :: _) => some (false, [name])
  | .form .namespace (.name name :: _) => some (false, [name])
  | .form .importAlias (.name name :: _) => some (false, [name])
  | .importing _ bindings => some (false, bindings.map (·.bound))
  | _ => none

/-- Functions, blocks, loops, `catch` clauses, `switch` bodies, static blocks, accessors, namespace
bodies, and function and class expressions with a name are scopes. Those of functions, static blocks,
accessors and namespaces take up what `var` declares; all else that is declared stays in the innermost
scope. -/
def lexical : Scoping := ⟨lexicalAround?, lexicalOwn, lexicalDeclared?⟩

end Scoping

/-- Some scope around a place declares a name, wherever in the scope the declaration stands. A module
is no scope: its names are those of its imports. -/
def Shadowed (root : Node) (place : Place) (name : String) : Prop :=
  Scoping.lexical.Hides (fun _ => True) root place name

instance (root : Node) (place : Place) (name : String) : Decidable (Shadowed root place name) :=
  inferInstanceAs (Decidable (Scoping.lexical.Hides (fun _ => True) root place name))

end BundlePrep.Script
