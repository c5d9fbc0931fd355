import BundlePrep.Script.Tree
import Mathlib.Data.List.Basic

/-!
# Places in a program tree

A place is the way from the root of a tree to one of its nodes. The parts of a class are told apart
on the way, since of all of them only the members stand inside its body.
-/

set_option autoImplicit false

namespace BundlePrep.Script

/-- The way from a node to one of its parts. -/
inductive Step where
  | decorator (index : Nat)
  | heritage (index : Nat)
  | member (index : Nat)
  | type (index : Nat)
  | part (index : Nat)
  deriving DecidableEq, Repr

def Step.index : Step → Nat
  | .decorator i | .heritage i | .member i | .type i | .part i => i

abbrev Place := List Step

namespace Node

def child? : Node → Step → Option Node
  | .dotted object _, .part 0 => some object
  | .call callee arguments types, .part i => (callee :: (arguments ++ types))[i]?
  | .argument _ _ value, .part 0 => some value
  | .paren inner, .part 0 => some inner
  | .sequence parts, .part i => parts[i]?
  | .scope _ _ parts, .part i => parts[i]?
  | .declare _ _ parts, .part i => parts[i]?
  | .form _ parts, .part i => parts[i]?
  | .classBody decorators _ _ _, .decorator i => decorators[i]?
  | .classBody _ heritage _ _, .heritage i => heritage[i]?
  | .classBody _ _ members _, .member i => members[i]?
  | .classBody _ _ _ types, .type i => types[i]?
  | _, _ => none

/-- The node at a place. -/
def at? (n : Node) : Place → Option Node
  | [] => some n
  | s :: p => (n.child? s).bind fun m => m.at? p

theorem at?_nil (n : Node) : n.at? [] = some n := rfl

theorem at?_cons (n : Node) (s : Step) (p : Place) :
    n.at? (s :: p) = (n.child? s).bind fun m => m.at? p := rfl

theorem at?_append (n : Node) (p q : Place) : n.at? (p ++ q) = (n.at? p).bind fun m => m.at? q := by
  induction p generalizing n with
  | nil => rfl
  | cons s p ih =>
    simp only [List.cons_append, at?_cons, Option.bind_assoc]
    congr 1
    funext m
    exact ih m

theorem child?_of_at? {n x : Node} {s : Step} {q : Place} (h : n.at? (s :: q) = some x) :
    ∃ m, n.child? s = some m ∧ m.at? q = some x := by
  rw [at?_cons] at h
  exact Option.bind_eq_some_iff.1 h

theorem sizeOf_append_le (a b : List Node) : sizeOf (a ++ b) ≤ sizeOf a + sizeOf b := by
  induction a with
  | nil => simp
  | cons n a ih =>
    simp only [List.cons_append, List.cons.sizeOf_spec]
    omega

theorem sizeOf_child? {n m : Node} {s : Step} (h : n.child? s = some m) : sizeOf m < sizeOf n := by
  have among {parts : List Node} {i : Nat} (found : parts[i]? = some m) :
      sizeOf m < sizeOf parts := List.sizeOf_lt_of_mem (List.mem_of_getElem? found)
  cases n with
  | name | importing | privateName => simp [child?] at h
  | dotted object property | argument spread span object =>
    rcases s with _ | _ | _ | _ | _ | _ <;> simp [child?] at h
    subst h
    simp only [dotted.sizeOf_spec, argument.sizeOf_spec]
    omega
  | paren object =>
    rcases s with _ | _ | _ | _ | _ | _ <;> simp [child?] at h
    subst h
    simp
  | call callee arguments types =>
    cases s <;> simp [child?] at h
    have less := among h
    have whole := sizeOf_append_le arguments types
    simp only [List.cons.sizeOf_spec, call.sizeOf_spec] at less ⊢
    omega
  | sequence parts | scope function names parts | declare hoisted names parts | form f parts =>
    cases s <;> simp [child?] at h
    have less := among h
    simp
    omega
  | classBody decorators heritage members types =>
    cases s <;> simp [child?] at h
    all_goals
      have less := among h
      simp
      omega

mutual
def places : Node → List Place
  | .name _ | .privateName _ _ | .importing _ _ => [[]]
  | .dotted inner _ | .argument _ _ inner | .paren inner =>
    [] :: (places inner).map (.part 0 :: ·)
  | .call callee arguments types =>
    [] :: ((places callee).map (.part 0 :: ·) ++
      (placesOf .part 1 arguments ++ placesOf .part (1 + arguments.length) types))
  | .sequence parts | .scope _ _ parts | .declare _ _ parts | .form _ parts =>
    [] :: placesOf .part 0 parts
  | .classBody decorators heritage members types =>
    [] :: (placesOf .decorator 0 decorators ++ placesOf .heritage 0 heritage ++
      placesOf .member 0 members ++ placesOf .type 0 types)

def placesOf (step : Nat → Step) (index : Nat) : List Node → List Place
  | [] => []
  | p :: ps => (places p).map (step index :: ·) ++ placesOf step (index + 1) ps
end

theorem mem_placesOf {parts : List Node} {m : Node} {i : Nat} {q : Place}
    (found : parts[i]? = some m) (under : q ∈ m.places) (step : Nat → Step) (index : Nat) :
    step (index + i) :: q ∈ placesOf step index parts := by
  induction parts generalizing i index with
  | nil => cases found
  | cons p ps ih =>
    rw [placesOf, List.mem_append]
    cases i with
    | zero =>
      obtain rfl := Option.some.inj found
      exact .inl (List.mem_map.2 ⟨q, under, rfl⟩)
    | succ i =>
      rw [← Nat.add_assoc, Nat.add_right_comm]
      exact .inr (ih found (index + 1))

theorem placesOf_append (step : Nat → Step) (index : Nat) (a b : List Node) :
    placesOf step index (a ++ b) =
      placesOf step index a ++ placesOf step (index + a.length) b := by
  induction a generalizing index with
  | nil => simp [placesOf]
  | cons n a ih => simp [placesOf, ih, Nat.add_assoc, Nat.add_comm 1]

theorem mem_places_cons {n m : Node} {s : Step} {q : Place} (child : n.child? s = some m)
    (under : q ∈ m.places) : s :: q ∈ n.places := by
  have among {parts : List Node} {i : Nat} (found : parts[i]? = some m) (step : Nat → Step) :
      step i :: q ∈ placesOf step 0 parts := by
    simpa using mem_placesOf found under step 0
  cases n with
  | name | importing | privateName => simp [child?] at child
  | dotted inner _ | argument _ _ inner | paren inner =>
    rcases s with _ | _ | _ | _ | _ | _ <;> simp [child?] at child
    subst child
    simpa [places] using under
  | sequence parts | scope _ _ parts | declare _ _ parts | form _ parts =>
    cases s <;> simp [child?] at child
    exact List.mem_cons_of_mem _ (among child _)
  | call callee arguments types =>
    cases s <;> simp only [child?, reduceCtorEq] at child
    simpa [places, placesOf, placesOf_append] using among child .part
  | classBody decorators heritage members types =>
    cases s <;> simp [child?] at child <;>
      simp [places, among child]

theorem mem_places {n x : Node} {q : Place} (h : n.at? q = some x) : q ∈ n.places := by
  induction q generalizing n with
  | nil => cases n <;> simp [places]
  | cons s q ih =>
    obtain ⟨m, child, under⟩ := child?_of_at? h
    exact mem_places_cons child (ih under)

def Declares (members : List Node) (name : String) : Prop :=
  ∃ m ∈ members, m.privateKey? = some name

end Node

/-- A program as one tree. -/
def Program.root (program : Program) : Node := .sequence program.body

/-- A place stands inside the body of a class: the way to it leads through a member. -/
def Encloses (root : Node) (body place : Place) : Prop :=
  ∃ decorators heritage members types i rest,
    root.at? body = some (.classBody decorators heritage members types) ∧
      place = body ++ .member i :: rest

/-- The class at a place declares a private name. -/
def DeclaresAt (root : Node) (body : Place) (name : String) : Prop :=
  ∃ decorators heritage members types,
    root.at? body = some (.classBody decorators heritage members types) ∧
      Node.Declares members name

/-- A private name at a place is bound by a class: of the bodies around the place that declare it,
that of the class is the innermost. -/
def BoundTo (root : Node) (place : Place) (name : String) (body : Place) : Prop :=
  Encloses root body place ∧ DeclaresAt root body name ∧
    ∀ other, Encloses root other place → DeclaresAt root other name → other.length ≤ body.length

/-- A private name stands at a place. -/
def NamedAt (root : Node) (place : Place) (name : String) (span : Span) : Prop :=
  root.at? place = some (.privateName name span)

/-- A place is the left operand of `in`. -/
def LeftOfIn (root : Node) (place : Place) : Prop :=
  ∃ check left right, place = check ++ [.part 0] ∧
    root.at? check = some (.form .inCheck [left, right])

/-- A place stands among the types of a class: its type parameters, the type arguments of what it
extends, and the types it implements. -/
def InClassTypes (place : Place) : Prop := ∃ i, Step.type i ∈ place

theorem not_inClassTypes_nil : ¬InClassTypes [] := by
  simp [InClassTypes]

theorem inClassTypes_cons (s : Step) (p : Place) :
    InClassTypes (s :: p) ↔ (∃ i, s = .type i) ∨ InClassTypes p := by
  simp [InClassTypes, exists_or, eq_comm]

theorem Encloses.inClassTypes {root : Node} {body place : Place} (h : Encloses root body place)
    (types : InClassTypes body) : InClassTypes place := by
  obtain ⟨_, _, _, _, _, _, -, rfl⟩ := h
  obtain ⟨j, mem⟩ := types
  exact ⟨j, List.mem_append_left _ mem⟩

theorem not_leftOfIn_nil (root : Node) : ¬LeftOfIn root [] := by
  rintro ⟨check, left, right, whole, -⟩
  simp at whole

theorem leftOfIn_cons {n m : Node} {s : Step} {p : Place} (h : n.child? s = some m) :
    LeftOfIn n (s :: p) ↔
      (p = [] ∧ s = .part 0 ∧ ∃ left right, n = .form .inCheck [left, right]) ∨ LeftOfIn m p := by
  constructor
  · rintro ⟨check, left, right, whole, at_⟩
    cases check with
    | nil =>
      obtain ⟨rfl, rfl⟩ := List.cons.inj whole
      exact .inl ⟨rfl, rfl, left, right, Option.some.inj at_⟩
    | cons t check =>
      obtain ⟨rfl, rfl⟩ := List.cons.inj whole
      rw [Node.at?_cons, h] at at_
      exact .inr ⟨check, left, right, rfl, at_⟩
  · rintro (⟨rfl, rfl, left, right, rfl⟩ | ⟨check, left, right, rfl, at_⟩)
    · exact ⟨[], left, right, rfl, rfl⟩
    · refine ⟨s :: check, left, right, rfl, ?_⟩
      rwa [Node.at?_cons, h]

theorem boundTo_unique {root : Node} {place : Place} {name : String} {a b : Place}
    (ha : BoundTo root place name a) (hb : BoundTo root place name b) : a = b := by
  have length : a.length = b.length :=
    Nat.le_antisymm (hb.2.2 a ha.1 ha.2.1) (ha.2.2 b hb.1 hb.2.1)
  obtain ⟨_, _, _, _, _, _, -, whole⟩ := ha.1
  obtain ⟨_, _, _, _, _, _, -, same⟩ := hb.1
  exact (List.append_inj (whole.symm.trans same) length).1

theorem DeclaresAt.exists_bound {root : Node} {c : Place} {name : String}
    (h : DeclaresAt root c name) : ∃ i span, NamedAt root (c ++ [.member i, .part 0]) name span ∧
      BoundTo root (c ++ [.member i, .part 0]) name c := by
  obtain ⟨decorators, heritage, members, types, at_, m, mem, key⟩ := h
  obtain ⟨i, found⟩ := List.mem_iff_getElem?.1 mem
  unfold Node.privateKey? at key
  split at key
  next text span parts =>
    obtain rfl := Option.some.inj key
    refine ⟨i, span, ?_, ⟨decorators, heritage, members, types, i, [.part 0], at_, rfl⟩,
      ⟨decorators, heritage, members, types, at_, _, mem, rfl⟩, ?_⟩
    · rw [NamedAt, Node.at?_append, at_, Option.bind_some, Node.at?_cons, Node.child?, found]
      rfl
    · rintro other ⟨_, _, _, _, j, rest, -, whole⟩ -
      -- A class further in would have the name itself as its member.
      by_contra longer
      rcases List.append_eq_append_iff.1 whole with ⟨gap, rfl, same⟩ | ⟨gap, rfl, same⟩
      · cases gap with
        | nil => simp at longer
        | cons s gap =>
          obtain ⟨rfl, same⟩ := List.cons.inj same
          cases gap with
          | nil => cases same
          | cons t gap => simp at same
      · simp at longer
  next => cases key

theorem namedAt_unique {root : Node} {place : Place} {name name' : String} {span span' : Span}
    (h : NamedAt root place name span) (h' : NamedAt root place name' span') :
    name = name' ∧ span = span' := by
  obtain ⟨rfl, rfl⟩ := Node.privateName.inj (Option.some.inj (h.symm.trans h'))
  exact ⟨rfl, rfl⟩

end BundlePrep.Script
