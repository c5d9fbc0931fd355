import BundlePrep.PrivateName.Resolve
import BundlePrep.Proofs.Script.Place
import Mathlib.Data.List.Nodup

/-!
# Surveys of private names

A survey lists the private names of a tree with the places where they stand and the classes that
bind them, and the pairs of a class and a name in the order in which they are numbered. It knows no
numbers. The walk that resolves private names gives each of them the number of its pair.
-/

set_option autoImplicit false

namespace BundlePrep.PrivateName

open BundlePrep.Script

structure Body where
  place : Place
  names : List String

def binder? (around : List Body) (name : String) : Option Place :=
  (around.find? fun body => body.names.contains name).map (·.place)

structure Occurrence where
  place : Place
  name : String
  span : Span
  quoted : Bool
  binder : Option Place

structure Survey where
  occurrences : List Occurrence
  declared : List (Place × String)
  classes : Nat

namespace Survey

def empty : Survey := ⟨[], [], 0⟩

def append (a b : Survey) : Survey :=
  ⟨a.occurrences ++ b.occurrences, a.declared ++ b.declared, a.classes + b.classes⟩

def single (around : List Body) (here : Place) (name : String) (span : Span) (quoted : Bool) :
    Survey :=
  ⟨[⟨here, name, span, quoted, binder? around name⟩], [], 0⟩

def ofClass (here : Place) (names : List String) : Survey :=
  ⟨[], names.map fun name => (here, name), if names.isEmpty then 0 else 1⟩

end Survey

mutual
def survey (around : List Body) (here : Place) : Node → Survey
  | .name _ | .importing _ _ => .empty
  | .privateName name span => .single around here name span false
  | .form .inCheck [.privateName name span, right] =>
    (Survey.single around (here ++ [.part 0]) name span true).append
      (survey around (here ++ [.part 1]) right)
  | .dotted object _ => survey around (here ++ [.part 0]) object
  | .call callee arguments types =>
    ((survey around (here ++ [.part 0]) callee).append
      (surveyAll around here .part 1 arguments)).append
      (surveyAll around here .part (1 + arguments.length) types)
  | .argument _ _ value => survey around (here ++ [.part 0]) value
  | .paren inner => survey around (here ++ [.part 0]) inner
  | .sequence parts => surveyAll around here .part 0 parts
  | .scope _ _ parts => surveyAll around here .part 0 parts
  | .declare _ _ parts => surveyAll around here .part 0 parts
  | .classBody decorators heritage members _ =>
    ((surveyAll around here .decorator 0 decorators).append
      (surveyAll around here .heritage 0 heritage)).append
      ((Survey.ofClass here (declaredNames members)).append
        (surveyAll (⟨here, declaredNames members⟩ :: around) here .member 0 members))
  | .form _ parts => surveyAll around here .part 0 parts

def surveyAll (around : List Body) (here : Place) (step : Nat → Step) (index : Nat) :
    List Node → Survey
  | [] => .empty
  | p :: ps =>
    (survey around (here ++ [step index]) p).append (surveyAll around here step (index + 1) ps)
end

/-! ## The walk follows the survey -/

section Numbering

variable (number : Place × String → Nat)

def Body.bindings (body : Body) : Bindings :=
  body.names.map fun name => (name, number (body.place, name))

def Occurrence.use (o : Occurrence) : Use :=
  ⟨o.name, o.span, o.quoted, o.binder.map fun body => number (body, o.name)⟩

def Survey.found (next : Nat) (s : Survey) : Found :=
  ⟨s.occurrences.map (Occurrence.use number), next + s.declared.length, s.classes⟩

def Survey.NumberedFrom (next : Nat) (s : Survey) : Prop :=
  s.declared.map number = List.range' next s.declared.length

theorem numberedFrom_append {next : Nat} {a b : Survey} :
    (a.append b).NumberedFrom number next ↔
      a.NumberedFrom number next ∧ b.NumberedFrom number (next + a.declared.length) := by
  simp only [Survey.NumberedFrom, Survey.append, List.map_append, List.length_append]
  rw [← List.range'_append_1]
  constructor
  · intro h
    exact List.append_inj h (by simp)
  · rintro ⟨ha, hb⟩
    rw [ha, hb]

theorem length_declared_append (a b : Survey) :
    (a.append b).declared.length = a.declared.length + b.declared.length := by
  simp [Survey.append]

theorem next_found (next : Nat) (s : Survey) :
    (s.found number next).next = next + s.declared.length := rfl

theorem found_append (next : Nat) (a b : Survey) :
    (a.append b).found number next =
      (a.found number next).append (b.found number (next + a.declared.length)) := by
  simp [Survey.append, Survey.found, Found.append, Nat.add_assoc]

theorem lookup_map_pair (names : List String) (f : String → Nat) (name : String) :
    (names.map fun x => (x, f x)).lookup name = if names.contains name then some (f name) else none := by
  induction names with
  | nil => rfl
  | cons x xs ih =>
    by_cases h : name = x
    · simp [h]
    · have different : (name == x) = false := by simpa using h
      simp [List.lookup_cons, different, ih, h]

theorem lookup_bindings (around : List Body) (name : String) :
    Environment.lookup (around.map (Body.bindings number)) name =
      (binder? around name).map fun body => number (body, name) := by
  induction around with
  | nil => rfl
  | cons body around ih =>
    have first : (body.bindings number).lookup name =
        if body.names.contains name then some (number (body.place, name)) else none :=
      lookup_map_pair body.names (fun x => number (body.place, x)) name
    simp only [Environment.lookup, binder?] at ih ⊢
    rw [List.map_cons, List.findSome?_cons, first, List.find?_cons]
    cases declared : body.names.contains name with
    | true => rfl
    | false => exact ih

theorem length_declared_ofClass (here : Place) (names : List String) :
    (Survey.ofClass here names).declared.length = names.length := by
  simp [Survey.ofClass]

theorem bind_eq_bindings {next : Nat} {here : Place} {members : List Node}
    (h : (Survey.ofClass here (declaredNames members)).NumberedFrom number next) :
    bind next members = Body.bindings number ⟨here, declaredNames members⟩ := by
  have numbers : (declaredNames members).map (fun name => number (here, name)) =
      List.range' next (declaredNames members).length := by
    simpa [Survey.NumberedFrom, Survey.ofClass, Function.comp_def] using h
  rw [bind, List.zipIdx_eq_zip_range', ← numbers, Body.bindings, List.zip_map_right,
    List.zip_eq_zipWith, List.zipWith_self, List.map_map]
  rfl

theorem useAt_eq_found (around : List Body) (here : Place) (next : Nat) (name : String)
    (span : Span) (quoted : Bool) :
    useAt (around.map (Body.bindings number)) next name span quoted =
      (Survey.single around here name span quoted).found number next := by
  simp [useAt, Survey.single, Survey.found, Occurrence.use, lookup_bindings]

theorem inCheck_cases (f : Form) (parts : List Node) :
    (∃ name span right, f = .inCheck ∧ parts = [.privateName name span, right]) ∨
      ∀ name span right, f = .inCheck → parts = [.privateName name span, right] → False := by
  by_cases check : ∃ name span right, f = .inCheck ∧ parts = [.privateName name span, right]
  · exact .inl check
  · exact .inr fun name span right hf hp => check ⟨name, span, right, hf, hp⟩

mutual
/-- A walk finds what the survey of its node says, where the bodies around and the pairs of the
survey have their numbers. -/
theorem walk_eq_found (around : List Body) (here : Place) (next : Nat) :
    (n : Node) → (survey around here n).NumberedFrom number next →
      walk (around.map (Body.bindings number)) next n = (survey around here n).found number next
  | .name _, _ => by rw [walk, survey]; rfl
  | .importing _ _, _ => by rw [walk, survey]; rfl
  | .privateName name span, _ => by rw [walk, survey, useAt_eq_found number around here]
  | .dotted object _, h => by
    rw [survey] at h
    rw [walk, survey, walk_eq_found _ _ _ object h]
  | .call callee arguments types, h => by
    rw [survey, numberedFrom_append, numberedFrom_append, length_declared_append,
      ← Nat.add_assoc] at h
    obtain ⟨⟨first, second⟩, third⟩ := h
    rw [walk, survey, found_append, found_append, length_declared_append, ← Nat.add_assoc,
      walk_eq_found _ _ _ callee first, next_found, walkAll_eq_found _ _ _ _ _ arguments second,
      next_found, walkAll_eq_found _ _ _ _ _ types third]
  | .argument _ _ value, h => by
    rw [survey] at h
    rw [walk, survey, walk_eq_found _ _ _ value h]
  | .paren inner, h => by
    rw [survey] at h
    rw [walk, survey, walk_eq_found _ _ _ inner h]
  | .sequence parts, h => by
    rw [survey] at h
    rw [walk, survey, walkAll_eq_found _ _ _ _ _ parts h]
  | .scope _ _ parts, h => by
    rw [survey] at h
    rw [walk, survey, walkAll_eq_found _ _ _ _ _ parts h]
  | .declare _ _ parts, h => by
    rw [survey] at h
    rw [walk, survey, walkAll_eq_found _ _ _ _ _ parts h]
  | .classBody decorators heritage members _, h => by
    rw [survey, numberedFrom_append, numberedFrom_append, numberedFrom_append,
      length_declared_append, ← Nat.add_assoc] at h
    obtain ⟨⟨first, second⟩, own, inside⟩ := h
    have body := walkAll_eq_found (⟨here, declaredNames members⟩ :: around) _ _ _ _ members inside
    rw [length_declared_ofClass] at body
    have count := length_bind (next + (surveyAll around here .decorator 0 decorators).declared.length
      + (surveyAll around here .heritage 0 heritage).declared.length) members
    rw [walk, survey, found_append, found_append, found_append, length_declared_append,
      ← Nat.add_assoc, walkAll_eq_found _ _ _ _ _ decorators first, next_found,
      walkAll_eq_found _ _ _ _ _ heritage second, next_found, count, bind_eq_bindings number own]
    rw [List.map_cons] at body
    rw [body]
    simp [Survey.found, Survey.ofClass, Found.append, Body.bindings, Nat.add_comm]
  | .form f parts, h => by
    obtain ⟨name, span, right, rfl, rfl⟩ | other := inCheck_cases f parts
    · rw [survey, numberedFrom_append] at h
      rw [walk, survey]
      rw [found_append, ← useAt_eq_found, ← walk_eq_found _ _ _ right h.2]
      rfl
    · have shape : survey around here (.form f parts) = surveyAll around here .part 0 parts := by
        rw [survey]
        exact other
      rw [shape] at h
      rw [shape, walk, walkAll_eq_found _ _ _ _ _ parts h]
      exact other

theorem walkAll_eq_found (around : List Body) (here : Place) (next : Nat) (step : Nat → Step)
    (index : Nat) : (ps : List Node) →
      (surveyAll around here step index ps).NumberedFrom number next →
      walkAll (around.map (Body.bindings number)) next ps =
        (surveyAll around here step index ps).found number next
  | [], _ => by rw [walkAll, surveyAll]; rfl
  | p :: ps, h => by
    rw [surveyAll, numberedFrom_append] at h
    rw [walkAll, surveyAll, found_append, walk_eq_found _ _ _ p h.1, next_found,
      walkAll_eq_found _ _ _ _ _ ps h.2]
end

end Numbering

end BundlePrep.PrivateName
