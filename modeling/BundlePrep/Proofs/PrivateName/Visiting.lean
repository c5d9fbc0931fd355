import BundlePrep.Proofs.PrivateName.Occurrence
import Mathlib.Data.Finset.Card

/-!
# A survey lists in the order of its visits

The parts of a node are surveyed one behind the other. A class is visited behind its decorators and
what it extends, and before its members; its names come in the order in which they are first declared.
What is listed for one part stands at places that the others do not reach, so nothing is listed twice.
-/

set_option autoImplicit false

namespace BundlePrep.Script

/-! ## The order of visits -/

def Step.turn : Step → Nat
  | .decorator _ => 0
  | .heritage _ => 1
  | .member _ | .part _ => 3
  | .type _ => 4

def Step.VisitedBefore (s t : Step) : Prop :=
  s.turn < t.turn ∨ s.turn = t.turn ∧ s.index < t.index

def Place.VisitedBefore : Place → Place → Prop
  | [], [] => False
  | [], t :: _ => 2 < t.turn
  | s :: _, [] => s.turn < 2
  | s :: p, t :: q => s.VisitedBefore t ∨ s = t ∧ VisitedBefore p q

theorem Step.VisitedBefore.irrefl (s : Step) : ¬s.VisitedBefore s := by
  simp [VisitedBefore]

namespace Place

theorem VisitedBefore.irrefl (p : Place) : ¬p.VisitedBefore p := by
  induction p with
  | nil => exact not_false
  | cons s p ih =>
    rintro (before | ⟨-, before⟩)
    · exact Step.VisitedBefore.irrefl s before
    · exact ih before

theorem VisitedBefore.ne {p q : Place} (h : p.VisitedBefore q) : p ≠ q := by
  rintro rfl
  exact VisitedBefore.irrefl p h

theorem visitedBefore_append (here p q : Place) :
    (here ++ p).VisitedBefore (here ++ q) ↔ p.VisitedBefore q := by
  induction here with
  | nil => rfl
  | cons s here ih =>
    rw [List.cons_append, List.cons_append, VisitedBefore, ih]
    exact ⟨fun before => before.elim (fun self => absurd self (Step.VisitedBefore.irrefl s)) And.right,
      fun before => .inr ⟨rfl, before⟩⟩

end Place

end BundlePrep.Script

namespace BundlePrep.PrivateName

open BundlePrep.Script

def FirstBefore (root : Node) (c : Place) (name name' : String) : Prop :=
  ∃ decorators heritage members types,
    root.at? c = some (.classBody decorators heritage members types) ∧
      (members.map Node.privateKey?).idxOf (some name) <
        (members.map Node.privateKey?).idxOf (some name')

def NumberedBefore (root : Node) (a b : Place × String) : Prop :=
  a.1.VisitedBefore b.1 ∨ a.1 = b.1 ∧ FirstBefore root a.1 a.2 b.2

theorem NumberedBefore.ne {root : Node} {a b : Place × String} (h : NumberedBefore root a b) :
    a ≠ b := by
  rintro rfl
  rcases h with before | ⟨-, _, _, _, _, -, less⟩
  · exact Place.VisitedBefore.irrefl _ before
  · exact Nat.lt_irrefl _ less

/-! ## Names in the order of their first declarations -/

theorem idxOf_lt_of_filter {α : Type} [DecidableEq α] {p : α → Bool} {l : List α} {a b : α}
    (ha : p a = true) (hb : p b = true) (h : (l.filter p).idxOf a < (l.filter p).idxOf b) :
    l.idxOf a < l.idxOf b := by
  induction l with
  | nil => exact h
  | cons x l ih =>
    by_cases hx : p x = true
    · rw [List.filter_cons_of_pos hx] at h
      by_cases xa : x = a <;> by_cases xb : x = b <;>
        simp_all [List.idxOf_cons_ne]
    · have xa : x ≠ a := fun same => hx (same ▸ ha)
      have xb : x ≠ b := fun same => hx (same ▸ hb)
      rw [List.filter_cons_of_neg hx] at h
      rw [List.idxOf_cons_ne _ xa, List.idxOf_cons_ne _ xb]
      exact Nat.succ_lt_succ (ih h)

theorem pairwise_eraseDups {α : Type} [DecidableEq α] (l : List α) :
    l.eraseDups.Pairwise fun a b => l.idxOf a < l.idxOf b := by
  induction h : l.length using Nat.strongRecOn generalizing l with
  | _ length ih =>
  cases l with
  | nil => exact List.Pairwise.nil
  | cons x l =>
    have less : (l.filter fun y => !y == x).length < length := by
      have := List.length_filter_le (fun y => !y == x) l
      simp only [List.length_cons] at h
      omega
    have other {y : α} (mem : y ∈ (l.filter fun y => !y == x).eraseDups) : x ≠ y := by
      rw [List.mem_eraseDups, List.mem_filter] at mem
      rintro rfl
      simp at mem
    rw [List.eraseDups_cons, List.pairwise_cons]
    constructor
    · intro y mem
      rw [List.idxOf_cons_self, List.idxOf_cons_ne _ (other mem)]
      exact Nat.succ_pos _
    · refine (ih _ less _ rfl).imp_of_mem fun {a b} ha hb before => ?_
      rw [List.idxOf_cons_ne _ (other ha), List.idxOf_cons_ne _ (other hb)]
      refine Nat.succ_lt_succ (idxOf_lt_of_filter ?_ ?_ before)
      · simpa using (other ha).symm
      · simpa using (other hb).symm

theorem idxOf_filterMap {α β : Type} [DecidableEq β] (f : α → Option β) {l : List α} {a b : β}
    (h : (l.filterMap f).idxOf a < (l.filterMap f).idxOf b) :
    (l.map f).idxOf (some a) < (l.map f).idxOf (some b) := by
  induction l with
  | nil => exact h
  | cons x l ih =>
    cases found : f x with
    | none =>
      rw [List.filterMap_cons_none found] at h
      rw [List.map_cons, found, List.idxOf_cons_ne _ (by simp), List.idxOf_cons_ne _ (by simp)]
      exact Nat.succ_lt_succ (ih h)
    | some y =>
      rw [List.filterMap_cons_some found] at h
      rw [List.map_cons, found]
      by_cases ya : y = a <;> by_cases yb : y = b <;>
        simp_all [List.idxOf_cons_ne]

theorem pairwise_declaredNames (members : List Node) :
    (declaredNames members).Pairwise fun name name' =>
      (members.map Node.privateKey?).idxOf (some name) <
        (members.map Node.privateKey?).idxOf (some name') :=
  (pairwise_eraseDups _).imp fun before => idxOf_filterMap Node.privateKey? before

/-! ## Surveys in order -/

structure Survey.Ordered (root : Node) (s : Survey) : Prop where
  occurrences : (s.occurrences.map (·.place)).Pairwise Place.VisitedBefore
  declared : s.declared.Pairwise (NumberedBefore root)
  classes : s.classes = (s.declared.map Prod.fst).toFinset.card

def Survey.Under (here : Place) (steps : Step → Prop) (s : Survey) : Prop :=
  ∀ e, s.Lists e → ∃ step rest, steps step ∧ e.place = here ++ step :: rest

theorem lists_place {around : List Body} {here : Place} {n : Node} {e : Entry}
    (h : (survey around here n).Lists e) : ∃ q, e.place = here ++ q := by
  cases e with
  | use o =>
    obtain ⟨q, place, -⟩ := (lists_use_iff around here n o).1 h
    exact ⟨q, place⟩
  | pair c name =>
    obtain ⟨q, place, -⟩ := (lists_pair_iff around here n c name).1 h
    exact ⟨q, place⟩

namespace Survey

variable {root : Node} {here : Place} {A B : Step → Prop} {a b : Survey}

theorem ordered_empty : empty.Ordered root := ⟨by simp [empty], by simp [empty], rfl⟩

theorem ordered_single (around : List Body) (name : String) (span : Span) (quoted : Bool) :
    (single around here name span quoted).Ordered root :=
  ⟨by simp [single], by simp [single], rfl⟩

theorem ordered_ofClass {decorators heritage members types : List Node}
    (at_ : root.at? here = some (.classBody decorators heritage members types)) :
    (ofClass here (declaredNames members)).Ordered root where
  occurrences := by simp [ofClass]
  declared := List.pairwise_map.2 ((pairwise_declaredNames members).imp fun before =>
    .inr ⟨rfl, decorators, heritage, members, types, at_, before⟩)
  classes := by
    cases names : declaredNames members with
    | nil => rfl
    | cons name names =>
      rw [ofClass, List.map_map, Function.comp_def, List.map_const',
        List.toFinset_replicate_of_ne_zero (by simp)]
      rfl

theorem Ordered.append (ha : a.Ordered root) (hb : b.Ordered root)
    (h : ∀ e f, a.Lists e → b.Lists f → e.place.VisitedBefore f.place) :
    (a.append b).Ordered root where
  occurrences := by
    rw [Survey.append, List.map_append, List.pairwise_append]
    refine ⟨ha.occurrences, hb.occurrences, ?_⟩
    intro p hp q hq
    obtain ⟨o, ho, rfl⟩ := List.mem_map.1 hp
    obtain ⟨o', ho', rfl⟩ := List.mem_map.1 hq
    exact h (.use o) (.use o') ho ho'
  declared := by
    rw [Survey.append, List.pairwise_append]
    refine ⟨ha.declared, hb.declared, ?_⟩
    rintro ⟨c, name⟩ hc ⟨c', name'⟩ hc'
    exact .inl (h (.pair c name) (.pair c' name') hc hc')
  classes := by
    have apart : Disjoint (a.declared.map Prod.fst).toFinset (b.declared.map Prod.fst).toFinset := by
      rw [Finset.disjoint_left]
      intro c hc hc'
      obtain ⟨⟨c, name⟩, ha, rfl⟩ := List.mem_map.1 (List.mem_toFinset.1 hc)
      obtain ⟨⟨c', name'⟩, hb, same⟩ := List.mem_map.1 (List.mem_toFinset.1 hc')
      exact (h (.pair c name) (.pair c' name') ha hb).ne same.symm
    rw [Survey.append, List.map_append, List.toFinset_append, Finset.card_union_of_disjoint apart,
      ha.classes, hb.classes]

theorem Under.before (ua : a.Under here A) (ub : b.Under here B)
    (h : ∀ s t, A s → B t → s.VisitedBefore t) (e f : Entry) (he : a.Lists e) (hf : b.Lists f) :
    e.place.VisitedBefore f.place := by
  obtain ⟨s, x, hs, place⟩ := ua e he
  obtain ⟨t, y, ht, place'⟩ := ub f hf
  rw [place, place', Place.visitedBefore_append]
  exact .inl (h s t hs ht)

theorem ofClass_place {names : List String} {e : Entry} (h : (ofClass here names).Lists e) :
    e.place = here := by
  cases e with
  | use o => simp [ofClass, Lists] at h
  | pair c name =>
    obtain ⟨x, -, same⟩ := List.mem_map.1 h
    exact (Prod.mk.inj same).1.symm

theorem Under.before_here (ha : a.Under here A) (h : ∀ s, A s → s.turn < 2) {e : Entry}
    (he : a.Lists e) : e.place.VisitedBefore here := by
  obtain ⟨s, x, hs, place⟩ := ha e he
  have before := (Place.visitedBefore_append here (s :: x) []).2 (h s hs)
  rwa [List.append_nil, ← place] at before

theorem Under.here_before (ha : a.Under here A) (h : ∀ s, A s → 2 < s.turn) {e : Entry}
    (he : a.Lists e) : here.VisitedBefore e.place := by
  obtain ⟨s, x, hs, place⟩ := ha e he
  have before := (Place.visitedBefore_append here [] (s :: x)).2 (h s hs)
  rwa [List.append_nil, ← place] at before

theorem Under.append (ha : a.Under here A) (hb : b.Under here B) :
    (a.append b).Under here fun s => A s ∨ B s := by
  intro e listed
  rcases (lists_append a b e).1 listed with listed | listed
  · obtain ⟨s, x, hs, place⟩ := ha e listed
    exact ⟨s, x, .inl hs, place⟩
  · obtain ⟨s, x, hs, place⟩ := hb e listed
    exact ⟨s, x, .inr hs, place⟩

end Survey

section

variable (around : List Body) (here : Place)

theorem surveyAll_under (step : Nat → Step) (index : Nat) (ps : List Node) :
    (surveyAll around here step index ps).Under here
      fun s => ∃ j, index ≤ j ∧ j < index + ps.length ∧ s = step j := by
  intro e listed
  obtain ⟨j, p, found, listed⟩ := (lists_surveyAll step index ps).1 listed
  obtain ⟨q, place⟩ := lists_place listed
  have short := (List.getElem?_eq_some_iff.1 found).1
  exact ⟨step (index + j), q, ⟨index + j, by omega, by omega, rfl⟩,
    place.trans (List.append_cons here _ q).symm⟩

theorem survey_under_part (n : Node) (s : Step) :
    (survey around (here ++ [s]) n).Under here (· = s) := by
  intro e listed
  obtain ⟨q, place⟩ := lists_place listed
  exact ⟨s, q, rfl, place.trans (List.append_cons here _ q).symm⟩

end

section

variable {root : Node}

theorem at?_snoc {n m : Node} {here : Place} {s : Step} (at_ : root.at? here = some n)
    (child : n.child? s = some m) : root.at? (here ++ [s]) = some m := by
  rw [Node.at?_append, at_, Option.bind_some, Node.at?_cons, child]
  rfl

def InTurn (step : Nat → Step) : Prop := ∀ i j, i < j → (step i).VisitedBefore (step j)

theorem inTurn_part : InTurn .part := fun _ _ less => .inr ⟨rfl, less⟩

theorem inTurn_decorator : InTurn .decorator := fun _ _ less => .inr ⟨rfl, less⟩

theorem inTurn_heritage : InTurn .heritage := fun _ _ less => .inr ⟨rfl, less⟩

theorem inTurn_member : InTurn .member := fun _ _ less => .inr ⟨rfl, less⟩

mutual
theorem survey_ordered (around : List Body) (here : Place) :
    (n : Node) → root.at? here = some n → (survey around here n).Ordered root
  | .name _, _ | .importing _ _, _ => by
    rw [survey]
    exact Survey.ordered_empty
  | .privateName name span, _ => by
    rw [survey]
    exact Survey.ordered_single around name span false
  | .dotted object _, at_ => by
    rw [survey]
    exact survey_ordered _ _ object (at?_snoc at_ rfl)
  | .argument _ _ value, at_ => by
    rw [survey]
    exact survey_ordered _ _ value (at?_snoc at_ rfl)
  | .paren inner, at_ => by
    rw [survey]
    exact survey_ordered _ _ inner (at?_snoc at_ rfl)
  | .call callee arguments types, at_ => by
    have first := survey_under_part around here callee (.part 0)
    have second := surveyAll_under around here .part 1 arguments
    have third := surveyAll_under around here .part (1 + arguments.length) types
    rw [survey]
    refine ((survey_ordered around (here ++ [.part 0]) callee (at?_snoc at_ rfl)).append
      (surveyAll_ordered around here inTurn_part 1 arguments ?_) (first.before second ?_)).append
      (surveyAll_ordered around here inTurn_part (1 + arguments.length) types ?_)
      ((first.append second).before third ?_)
    · intro j p found
      refine at?_snoc at_ ?_
      have inside := (List.getElem?_eq_some_iff.1 found).1
      rw [Node.child?, Nat.add_comm, List.getElem?_cons_succ, List.getElem?_append_left inside, found]
    · rintro s t rfl ⟨j, positive, -, rfl⟩
      exact inTurn_part _ _ (by omega)
    · intro j p found
      refine at?_snoc at_ ?_
      rw [Node.child?, Nat.add_assoc, Nat.add_comm, List.getElem?_cons_succ,
        List.getElem?_append_right (Nat.le_add_right _ _), Nat.add_sub_cancel_left, found]
    · rintro s t (rfl | ⟨i, -, below, rfl⟩) ⟨j, above, -, rfl⟩ <;>
        exact inTurn_part _ _ (by omega)
  | .sequence parts, at_ | .scope _ _ parts, at_ | .declare _ _ parts, at_ => by
    rw [survey]
    exact surveyAll_ordered around here inTurn_part 0 parts fun j p found =>
      at?_snoc at_ (by rwa [Nat.zero_add])
  | .classBody decorators heritage members types, at_ => by
    have first := surveyAll_under around here .decorator 0 decorators
    have second := surveyAll_under around here .heritage 0 heritage
    have third := surveyAll_under (⟨here, declaredNames members⟩ :: around) here .member 0 members
    rw [survey]
    refine ((surveyAll_ordered around here inTurn_decorator 0 decorators ?_).append
      (surveyAll_ordered around here inTurn_heritage 0 heritage ?_)
      (first.before second ?_)).append
      ((Survey.ordered_ofClass at_).append
        (surveyAll_ordered _ here inTurn_member 0 members ?_) ?_) ?_
    · exact fun j p found => at?_snoc at_ (by rwa [Nat.zero_add])
    · exact fun j p found => at?_snoc at_ (by rwa [Nat.zero_add])
    · rintro s t ⟨i, -, -, rfl⟩ ⟨j, -, -, rfl⟩
      exact .inl (by simp [Step.turn])
    · exact fun j p found => at?_snoc at_ (by rwa [Nat.zero_add])
    · intro e f he hf
      rw [Survey.ofClass_place he]
      exact third.here_before (by rintro s ⟨j, -, -, rfl⟩; simp [Step.turn]) hf
    · intro e f he hf
      have outside := first.append second
      rcases (Survey.lists_append _ _ f).1 hf with hf | hf
      · rw [Survey.ofClass_place hf]
        refine outside.before_here ?_ he
        rintro s (⟨j, -, -, rfl⟩ | ⟨j, -, -, rfl⟩) <;> simp [Step.turn]
      · refine outside.before third ?_ e f he hf
        rintro s t (⟨i, -, -, rfl⟩ | ⟨i, -, -, rfl⟩) ⟨j, -, -, rfl⟩ <;>
          exact .inl (by simp [Step.turn])
  | .form f parts, at_ => by
    obtain ⟨name, span, right, rfl, rfl⟩ | other := inCheck_cases f parts
    · have left : (Survey.single around (here ++ [.part 0]) name span true).Under here
          (· = .part 0) := by
        intro e listed
        cases e with
        | use o =>
          cases List.mem_singleton.1 listed
          exact ⟨.part 0, [], rfl, rfl⟩
        | pair c text => simp [Survey.single, Survey.Lists] at listed
      rw [survey]
      refine (Survey.ordered_single around name span true).append
        (survey_ordered around (here ++ [.part 1]) right (at?_snoc at_ rfl))
        (left.before (survey_under_part around here right (.part 1)) ?_)
      rintro s t rfl rfl
      exact inTurn_part _ _ Nat.zero_lt_one
    · have shape : survey around here (.form f parts) = surveyAll around here .part 0 parts := by
        rw [survey]
        exact other
      rw [shape]
      exact surveyAll_ordered around here inTurn_part 0 parts fun j p found =>
        at?_snoc at_ (by rwa [Nat.zero_add])

theorem surveyAll_ordered (around : List Body) (here : Place) {step : Nat → Step}
    (inTurn : InTurn step) (index : Nat) :
    (ps : List Node) →
      (∀ j p, ps[j]? = some p → root.at? (here ++ [step (index + j)]) = some p) →
      (surveyAll around here step index ps).Ordered root
  | [], _ => by
    rw [surveyAll]
    exact Survey.ordered_empty
  | p :: ps, at_ => by
    rw [surveyAll]
    refine (survey_ordered around (here ++ [step index]) p (at_ 0 p rfl)).append
      (surveyAll_ordered around here inTurn (index + 1) ps ?_)
      ((survey_under_part around here p (step index)).before
        (surveyAll_under around here step (index + 1) ps) ?_)
    · intro j q found
      rw [Nat.add_assoc, Nat.add_comm 1]
      exact at_ (j + 1) q found
    · rintro s t rfl ⟨j, above, -, rfl⟩
      exact inTurn _ _ above
end

end

theorem ordered_program (program : Program) :
    (survey [] [] program.root).Ordered program.root :=
  survey_ordered [] [] program.root rfl

theorem Survey.Ordered.nodup {root : Node} {s : Survey} (h : s.Ordered root) :
    (s.occurrences.map (·.place)).Nodup ∧ s.declared.Nodup :=
  ⟨h.occurrences.imp Place.VisitedBefore.ne, h.declared.imp NumberedBefore.ne⟩

end BundlePrep.PrivateName
