import BundlePrep.Proofs.PrivateName.Survey
import Mathlib.Tactic.Tauto

/-!
# What a survey lists

A survey lists every place of a private name once, but for those among the types of a class, and
every class with its names. What it lists at a node is what the node adds itself and what the
surveys of its parts list, where the parts of a class that are members have one more body around.
-/

set_option autoImplicit false

namespace BundlePrep.PrivateName

open BundlePrep.Script

inductive Entry where
  | use (o : Occurrence)
  | pair (place : Place) (name : String)

def Entry.place : Entry → Place
  | .use o => o.place
  | .pair place _ => place

def Survey.Lists (s : Survey) : Entry → Prop
  | .use o => o ∈ s.occurrences
  | .pair place name => (place, name) ∈ s.declared

namespace Survey

theorem not_lists_empty (e : Entry) : ¬empty.Lists e := by
  cases e <;> simp [Lists, empty]

theorem lists_append (a b : Survey) (e : Entry) : (a.append b).Lists e ↔ a.Lists e ∨ b.Lists e := by
  cases e <;> simp [Lists, append]

end Survey

/-! ## One step into a tree -/

def inside (around : List Body) (here : Place) : Node → Step → List Body
  | .classBody _ _ members _, .member _ => ⟨here, declaredNames members⟩ :: around
  | _, _ => around

def IsType : Step → Prop
  | .type _ => True
  | _ => False

def IsChecked : Node → Step → Prop
  | .form .inCheck [.privateName _ _, _], .part 0 => True
  | _, _ => False

def own (around : List Body) (here : Place) : Node → Survey
  | .privateName name span => .single around here name span false
  | .form .inCheck [.privateName name span, _] => .single around (here ++ [.part 0]) name span true
  | .classBody _ _ members _ => .ofClass here (declaredNames members)
  | _ => .empty

section

variable {around : List Body} {here : Place} {e : Entry}

theorem lists_surveyAll (step : Nat → Step) (index : Nat) (ps : List Node) :
    (surveyAll around here step index ps).Lists e ↔
      ∃ j p, ps[j]? = some p ∧ (survey around (here ++ [step (index + j)]) p).Lists e := by
  induction ps generalizing index with
  | nil => simp [surveyAll, Survey.not_lists_empty]
  | cons p ps ih =>
    rw [surveyAll, Survey.lists_append, ih]
    constructor
    · rintro (first | ⟨j, q, found, listed⟩)
      · exact ⟨0, p, rfl, first⟩
      · refine ⟨j + 1, q, found, ?_⟩
        rwa [Nat.add_right_comm, Nat.add_assoc] at listed
    · rintro ⟨j, q, found, listed⟩
      cases j with
      | zero =>
        cases found
        exact .inl listed
      | succ j =>
        refine .inr ⟨j, q, found, ?_⟩
        rwa [Nat.add_right_comm, Nat.add_assoc]

theorem lists_parts {n : Node} {ps : List Node}
    (whole : survey around here n = surveyAll around here .part 0 ps)
    (nothing : own around here n = .empty) (child : ∀ i, n.child? (.part i) = ps[i]?)
    (other : ∀ s m, n.child? s = some m → ∃ i, s = .part i) (plain : ∀ s, ¬IsChecked n s)
    (same : ∀ s, inside around here n s = around) :
    (survey around here n).Lists e ↔ (own around here n).Lists e ∨
      ∃ s m, n.child? s = some m ∧ ¬IsType s ∧ ¬IsChecked n s ∧
        (survey (inside around here n s) (here ++ [s]) m).Lists e := by
  rw [whole, nothing, lists_surveyAll]
  constructor
  · rintro ⟨j, p, found, listed⟩
    refine .inr ⟨.part j, p, (child j).trans found, not_false, plain _, ?_⟩
    rwa [same, ← Nat.zero_add j]
  · rintro (none | ⟨s, m, found, -, -, listed⟩)
    · exact absurd none (Survey.not_lists_empty e)
    · obtain ⟨i, rfl⟩ := other s m found
      rw [same] at listed
      rw [child] at found
      exact ⟨i, m, found, by rwa [Nat.zero_add]⟩

theorem lists_part {n : Node} (inner : Node)
    (whole : survey around here n = survey around (here ++ [.part 0]) inner)
    (nothing : own around here n = .empty) (child : ∀ s m, n.child? s = some m ↔ s = .part 0 ∧ inner = m)
    (plain : ∀ s, ¬IsChecked n s) (same : ∀ s, inside around here n s = around) :
    (survey around here n).Lists e ↔ (own around here n).Lists e ∨
      ∃ s m, n.child? s = some m ∧ ¬IsType s ∧ ¬IsChecked n s ∧
        (survey (inside around here n s) (here ++ [s]) m).Lists e := by
  rw [whole, nothing]
  constructor
  · intro listed
    exact .inr ⟨.part 0, inner, (child _ _).2 ⟨rfl, rfl⟩, not_false, plain _, by rwa [same]⟩
  · rintro (none | ⟨s, m, found, -, -, listed⟩)
    · exact absurd none (Survey.not_lists_empty e)
    · obtain ⟨rfl, rfl⟩ := (child s m).1 found
      rwa [same] at listed

theorem lists_call {callee : Node} {arguments types : List Node} :
    (survey around here (.call callee arguments types)).Lists e ↔
      ∃ j p, (callee :: (arguments ++ types))[j]? = some p ∧
        (survey around (here ++ [.part j]) p).Lists e := by
  have all : survey around here (.call callee arguments types) =
      (surveyAll around here .part 0 [callee] |>.append
        (surveyAll around here .part 1 arguments)).append
        (surveyAll around here .part (1 + arguments.length) types) := by
    rw [survey, surveyAll, surveyAll]
    simp [Survey.append, Survey.empty]
  rw [all, Survey.lists_append, Survey.lists_append, lists_surveyAll, lists_surveyAll,
    lists_surveyAll]
  constructor
  · rintro ((⟨j, p, found, listed⟩ | ⟨j, p, found, listed⟩) | ⟨j, p, found, listed⟩)
    · obtain ⟨rfl, rfl⟩ : j = 0 ∧ callee = p := by simpa [List.getElem?_singleton] using found
      exact ⟨0, callee, rfl, listed⟩
    · refine ⟨1 + j, p, ?_, listed⟩
      have short := (List.getElem?_eq_some_iff.1 found).1
      rw [Nat.add_comm, List.getElem?_cons_succ, List.getElem?_append_left short, found]
    · refine ⟨1 + arguments.length + j, p, ?_, listed⟩
      rw [Nat.add_assoc, Nat.add_comm, List.getElem?_cons_succ,
        List.getElem?_append_right (Nat.le_add_right _ _), Nat.add_sub_cancel_left, found]
  · rintro ⟨j, p, found, listed⟩
    cases j with
    | zero =>
      exact .inl (.inl ⟨0, p, found, listed⟩)
    | succ j =>
      rw [List.getElem?_cons_succ] at found
      by_cases short : j < arguments.length
      · rw [List.getElem?_append_left short] at found
        exact .inl (.inr ⟨j, p, found, by rwa [Nat.add_comm]⟩)
      · rw [List.getElem?_append_right (Nat.le_of_not_lt short)] at found
        refine .inr ⟨j - arguments.length, p, found, ?_⟩
        rwa [show 1 + arguments.length + (j - arguments.length) = j + 1 by omega]

theorem lists_survey (around : List Body) (here : Place) (n : Node) (e : Entry) :
    (survey around here n).Lists e ↔ (own around here n).Lists e ∨
      ∃ s m, n.child? s = some m ∧ ¬IsType s ∧ ¬IsChecked n s ∧
        (survey (inside around here n s) (here ++ [s]) m).Lists e := by
  cases n with
  | name text => simp [survey, own, Node.child?]
  | importing source bindings => simp [survey, own, Node.child?]
  | privateName text span => simp [survey, own, Node.child?]
  | dotted object property =>
    refine lists_part object (by rw [survey]) rfl ?_ (fun _ => not_false) (fun _ => rfl)
    intro s m
    rcases s with _ | _ | _ | _ | _ | _ <;> simp [Node.child?]
  | argument spread span value =>
    refine lists_part value (by rw [survey]) rfl ?_ (fun _ => not_false) (fun _ => rfl)
    intro s m
    rcases s with _ | _ | _ | _ | _ | _ <;> simp [Node.child?]
  | paren inner =>
    refine lists_part inner (by rw [survey]) rfl ?_ (fun _ => not_false) (fun _ => rfl)
    intro s m
    rcases s with _ | _ | _ | _ | _ | _ <;> simp [Node.child?]
  | call callee arguments types =>
    rw [lists_call]
    constructor
    · rintro ⟨j, p, found, listed⟩
      exact .inr ⟨.part j, p, found, not_false, not_false, listed⟩
    · rintro (none | ⟨s, m, found, -, -, listed⟩)
      · exact absurd none (Survey.not_lists_empty e)
      · cases s with
        | part j => exact ⟨j, m, found, listed⟩
        | _ => simp [Node.child?] at found
  | sequence parts =>
    refine lists_parts (by rw [survey]) rfl (fun _ => rfl) ?_ (fun _ => not_false) (fun _ => rfl)
    intro s m found
    cases s <;> simp_all [Node.child?]
  | scope function names parts =>
    refine lists_parts (by rw [survey]) rfl (fun _ => rfl) ?_ (fun _ => not_false) (fun _ => rfl)
    intro s m found
    cases s <;> simp_all [Node.child?]
  | declare hoisted names parts =>
    refine lists_parts (by rw [survey]) rfl (fun _ => rfl) ?_ (fun _ => not_false) (fun _ => rfl)
    intro s m found
    cases s <;> simp_all [Node.child?]
  | classBody decorators heritage members types =>
    rw [survey, Survey.lists_append, Survey.lists_append, Survey.lists_append, lists_surveyAll,
      lists_surveyAll, lists_surveyAll]
    simp only [Nat.zero_add]
    constructor
    · rintro ((⟨j, p, found, listed⟩ | ⟨j, p, found, listed⟩) | own | ⟨j, p, found, listed⟩)
      · exact .inr ⟨.decorator j, p, found, not_false, not_false, listed⟩
      · exact .inr ⟨.heritage j, p, found, not_false, not_false, listed⟩
      · exact .inl own
      · exact .inr ⟨.member j, p, found, not_false, not_false, listed⟩
    · rintro (own | ⟨s, m, found, code, -, listed⟩)
      · exact .inr (.inl own)
      · cases s with
        | decorator j => exact .inl (.inl ⟨j, m, found, listed⟩)
        | heritage j => exact .inl (.inr ⟨j, m, found, listed⟩)
        | member j => exact .inr (.inr ⟨j, m, found, listed⟩)
        | type j => exact absurd trivial code
        | part j => simp [Node.child?] at found
  | form f parts =>
    obtain ⟨name, span, right, rfl, rfl⟩ | other := inCheck_cases f parts
    · rw [survey, Survey.lists_append]
      constructor
      · rintro (own | listed)
        · exact .inl own
        · exact .inr ⟨.part 1, right, rfl, not_false, not_false, listed⟩
      · rintro (own | ⟨s, m, found, -, unchecked, listed⟩)
        · exact .inl own
        · rcases s with _ | _ | _ | _ | _ | _ | _
          all_goals simp [Node.child?] at found
          · exact absurd trivial unchecked
          · subst found
            exact .inr listed
    · refine lists_parts ?_ ?_ (fun _ => rfl) ?_ ?_ (fun _ => rfl)
      · rw [survey]
        exact other
      · rw [own]
        · exact fun _ _ same => Node.noConfusion same
        · intro name span right same
          injection same with check pair
          exact other name span right check pair
        · exact fun _ _ _ _ same => Node.noConfusion same
      · intro s m found
        cases s <;> simp_all [Node.child?]
      · intro s checked
        unfold IsChecked at checked
        split at checked
        next name span right same =>
          injection same with check pair
          exact other name span right check pair
        · exact checked

end

/-! ## What stands at a place -/

def bodiesOn (here : Place) (n : Node) : Place → List Body
  | [] => []
  | s :: q =>
    match n.child? s with
    | none => []
    | some m => bodiesOn (here ++ [s]) m q ++ inside [] here n s

theorem inside_eq (around : List Body) (here : Place) (n : Node) (s : Step) :
    inside around here n s = inside [] here n s ++ around := by
  cases n with
  | classBody => cases s <;> rfl
  | _ => rfl

theorem bodiesOn_cons {here : Place} {n m : Node} {s : Step} {q : Place} (h : n.child? s = some m)
    (around : List Body) :
    bodiesOn here n (s :: q) ++ around = bodiesOn (here ++ [s]) m q ++ inside around here n s := by
  rw [bodiesOn, h, inside_eq around, List.append_assoc]

theorem mem_declaredNames (members : List Node) (name : String) :
    name ∈ declaredNames members ↔ Node.Declares members name := by
  rw [declaredNames, List.mem_eraseDups, List.mem_filterMap, Node.Declares]

section

variable {around : List Body} {here : Place}

theorem own_lists_use {n : Node} {o : Occurrence} :
    (own around here n).Lists (.use o) ↔
      (∃ name span, n = .privateName name span ∧
        o = ⟨here, name, span, false, binder? around name⟩) ∨
      ∃ name span right, n = .form .inCheck [.privateName name span, right] ∧
        o = ⟨here ++ [.part 0], name, span, true, binder? around name⟩ := by
  unfold own
  split
  next name span => simp [Survey.single, Survey.Lists]
  next name span right => simp [Survey.single, Survey.Lists]
  next => simp [Survey.ofClass, Survey.Lists]
  next name check _ =>
    constructor
    · exact fun none => absurd none (Survey.not_lists_empty _)
    · rintro (⟨name', span, same, -⟩ | ⟨name', span, right, same, -⟩)
      · exact (name _ _ same).elim
      · exact (check _ _ _ same).elim

theorem own_lists_pair {n : Node} {c : Place} {name : String} :
    (own around here n).Lists (.pair c name) ↔
      c = here ∧ ∃ decorators heritage members types,
        n = .classBody decorators heritage members types ∧ Node.Declares members name := by
  unfold own
  split
  next => simp [Survey.single, Survey.Lists]
  next => simp [Survey.single, Survey.Lists]
  next decorators heritage members types =>
    constructor
    · intro listed
      obtain ⟨x, declared, same⟩ := List.mem_map.1 listed
      obtain ⟨rfl, rfl⟩ := Prod.mk.inj same
      exact ⟨rfl, decorators, heritage, members, types, rfl, (mem_declaredNames _ _).1 declared⟩
    · rintro ⟨rfl, _, _, _, _, same, declared⟩
      cases same
      exact List.mem_map.2 ⟨name, (mem_declaredNames _ _).2 declared, rfl⟩
  next other =>
    constructor
    · exact fun none => absurd none (Survey.not_lists_empty _)
    · rintro ⟨-, _, _, _, _, same, -⟩
      exact (other _ _ _ _ same).elim

theorem isChecked_iff {n : Node} {s : Step} :
    IsChecked n s ↔
      ∃ name span right, s = .part 0 ∧ n = .form .inCheck [.privateName name span, right] := by
  constructor
  · intro checked
    unfold IsChecked at checked
    split at checked
    next name span right => exact ⟨name, span, right, rfl, rfl⟩
    · exact checked.elim
  · rintro ⟨name, span, right, rfl, rfl⟩
    trivial

theorem namedAt_nil {n : Node} {name : String} {span : Span} :
    NamedAt n [] name span ↔ n = .privateName name span := by
  simp [NamedAt, Node.at?_nil]

theorem namedAt_cons {n m : Node} {s : Step} {q : Place} {name : String} {span : Span}
    (h : n.child? s = some m) : NamedAt n (s :: q) name span ↔ NamedAt m q name span := by
  simp [NamedAt, Node.at?_cons, h]

theorem namedAt_privateName {text name : String} {span range : Span} {q : Place}
    (h : NamedAt (.privateName text range) q name span) :
    q = [] ∧ text = name ∧ range = span := by
  cases q with
  | nil => simpa [namedAt_nil] using h
  | cons s q => simp [NamedAt, Node.at?_cons, Node.child?] at h

theorem lists_use_iff (around : List Body) (here : Place) (n : Node) (o : Occurrence) :
    (survey around here n).Lists (.use o) ↔ ∃ q, o.place = here ++ q ∧
      NamedAt n q o.name o.span ∧ ¬InClassTypes q ∧ (o.quoted = true ↔ LeftOfIn n q) ∧
        o.binder = binder? (bodiesOn here n q ++ around) o.name := by
  induction h : sizeOf n using Nat.strongRecOn generalizing around here n with
  | _ size ih =>
  subst h
  rw [lists_survey, own_lists_use]
  constructor
  · rintro ((⟨name, span, rfl, rfl⟩ | ⟨name, span, right, rfl, rfl⟩) |
      ⟨s, m, child, code, unchecked, listed⟩)
    · refine ⟨[], by simp, namedAt_nil.2 rfl, not_inClassTypes_nil, ?_, rfl⟩
      simp [not_leftOfIn_nil]
    · refine ⟨[.part 0], rfl, rfl, by simp [InClassTypes], ?_, rfl⟩
      simp only [true_iff]
      exact ⟨[], _, _, rfl, rfl⟩
    · obtain ⟨q, place, named, outside, quoted, bound⟩ :=
        (ih _ (Node.sizeOf_child? child) _ _ m rfl).1 listed
      refine ⟨s :: q, place.trans (List.append_cons here s q).symm, (namedAt_cons child).2 named, ?_, ?_, ?_⟩
      · rw [inClassTypes_cons]
        rintro (⟨i, rfl⟩ | types)
        · exact code trivial
        · exact outside types
      · rw [quoted, leftOfIn_cons child]
        constructor
        · exact .inr
        · rintro (⟨rfl, rfl, left, right, rfl⟩ | further)
          · cases child
            cases namedAt_nil.1 named
            exact absurd trivial unchecked
          · exact further
      · rw [bodiesOn_cons child, bound]
  · rintro ⟨q, place, named, outside, quoted, bound⟩
    obtain ⟨place', name, span, isQuoted, binder⟩ := o
    simp only at place named quoted bound
    subst place bound
    cases q with
    | nil =>
      refine .inl (.inl ⟨name, span, namedAt_nil.1 named, ?_⟩)
      have plain : isQuoted = false := by simpa [not_leftOfIn_nil] using quoted
      rw [plain, List.append_nil]
      rfl
    | cons s q =>
      obtain ⟨m, child, under⟩ := Node.child?_of_at? named
      by_cases checked : IsChecked n s
      · obtain ⟨text, range, right, rfl, rfl⟩ := isChecked_iff.1 checked
        cases child
        obtain ⟨rfl, rfl, rfl⟩ := namedAt_privateName under
        have left : isQuoted = true := quoted.2 ⟨[], _, _, rfl, rfl⟩
        rw [left]
        exact .inl (.inr ⟨text, range, right, rfl, rfl⟩)
      · rw [inClassTypes_cons, not_or] at outside
        refine .inr ⟨s, m, child, ?_, checked, ?_⟩
        · cases s with
          | type i => exact absurd ⟨i, rfl⟩ outside.1
          | _ => exact not_false
        · refine (ih _ (Node.sizeOf_child? child) _ _ m rfl).2
            ⟨q, by rw [List.append_cons], under, outside.2, ?_, ?_⟩
          · rw [quoted, leftOfIn_cons child, or_iff_right]
            rintro ⟨rfl, rfl, left, right, rfl⟩
            cases child
            cases namedAt_nil.1 under
            exact checked trivial
          · rw [bodiesOn_cons child]

theorem declaresAt_cons {n m : Node} {s : Step} {q : Place} {name : String}
    (h : n.child? s = some m) : DeclaresAt n (s :: q) name ↔ DeclaresAt m q name := by
  simp [DeclaresAt, Node.at?_cons, h]

theorem lists_pair_iff (around : List Body) (here : Place) (n : Node) (c : Place) (name : String) :
    (survey around here n).Lists (.pair c name) ↔
      ∃ q, c = here ++ q ∧ DeclaresAt n q name ∧ ¬InClassTypes q := by
  induction h : sizeOf n using Nat.strongRecOn generalizing around here n with
  | _ size ih =>
  subst h
  rw [lists_survey, own_lists_pair]
  constructor
  · rintro (⟨rfl, decorators, heritage, members, types, rfl, declared⟩ |
      ⟨s, m, child, code, -, listed⟩)
    · exact ⟨[], by simp, ⟨decorators, heritage, members, types, rfl, declared⟩,
        not_inClassTypes_nil⟩
    · obtain ⟨q, rfl, declares, outside⟩ := (ih _ (Node.sizeOf_child? child) _ _ m rfl).1 listed
      refine ⟨s :: q, (List.append_cons here s q).symm, (declaresAt_cons child).2 declares, ?_⟩
      rw [inClassTypes_cons]
      rintro (⟨i, rfl⟩ | types)
      · exact code trivial
      · exact outside types
  · rintro ⟨q, rfl, declares, outside⟩
    cases q with
    | nil =>
      obtain ⟨decorators, heritage, members, types, whole, declared⟩ := declares
      exact .inl ⟨by simp, decorators, heritage, members, types, Option.some.inj whole, declared⟩
    | cons s q =>
      obtain ⟨m, child⟩ : ∃ m, n.child? s = some m := by
        obtain ⟨_, _, _, _, whole, -⟩ := declares
        obtain ⟨m, child, -⟩ := Node.child?_of_at? whole
        exact ⟨m, child⟩
      have under := (declaresAt_cons child).1 declares
      rw [inClassTypes_cons, not_or] at outside
      refine .inr ⟨s, m, child, ?_, ?_, ?_⟩
      · cases s with
        | type i => exact absurd ⟨i, rfl⟩ outside.1
        | _ => exact not_false
      · intro checked
        obtain ⟨text, range, right, rfl, rfl⟩ := isChecked_iff.1 checked
        cases child
        obtain ⟨_, _, _, _, whole, -⟩ := under
        cases q <;> simp [Node.at?_nil, Node.at?_cons, Node.child?] at whole
      · exact (ih _ (Node.sizeOf_child? child) _ _ m rfl).2
          ⟨q, by rw [List.append_cons], under, outside.2⟩

end

end BundlePrep.PrivateName
