import BundlePrep.Message.Catalog
import Mathlib.Data.List.Basic

/-!
# Collected messages have numbers

A placeholder that has been collected stays in its collection, and the catalog of a collection has a
number for each of its placeholders.
-/

set_option autoImplicit false

namespace BundlePrep.Message

namespace Collection

def Holds (collection : Collection) (placeholder : String) : Prop :=
  ∃ e ∈ collection.entries, e.placeholder = placeholder

theorem holds_add_self (collection : Collection) (entry : Entry) :
    (collection.add entry).Holds entry.placeholder :=
  ⟨entry, mem_add.2 (.inl rfl), rfl⟩

theorem Holds.add {collection : Collection} {placeholder : String}
    (h : collection.Holds placeholder) (entry : Entry) :
    (collection.add entry).Holds placeholder := by
  obtain ⟨e, mem, rfl⟩ := h
  by_cases same : e.placeholder = entry.placeholder
  · rw [same]
    exact holds_add_self collection entry
  · exact ⟨e, mem_add.2 (.inr ⟨mem, same⟩), rfl⟩

theorem Holds.addAll {collection : Collection} {placeholder : String}
    (h : collection.Holds placeholder) (entries : List Entry) :
    (collection.addAll entries).Holds placeholder := by
  induction entries generalizing collection with
  | nil => exact h
  | cons entry entries ih => exact ih (h.add entry)

theorem holds_addAll {collection : Collection} {entries : List Entry} {entry : Entry}
    (h : entry ∈ entries) : (collection.addAll entries).Holds entry.placeholder := by
  induction entries generalizing collection with
  | nil => cases h
  | cons e entries ih =>
    rcases List.mem_cons.1 h with rfl | h
    · exact (holds_add_self collection entry).addAll entries
    · exact ih h

end Collection

/-! ## Elements that follow each other -/

theorem mem_of_mem_loop {α : Type} {r : α → α → Bool} {x a : α} {as acc : List α}
    (h : x ∈ List.eraseRepsBy.loop r a as acc) : x ∈ a :: as ∨ x ∈ acc := by
  induction as generalizing a acc with
  | nil =>
    rw [List.eraseRepsBy.loop, List.mem_reverse, List.mem_cons] at h
    exact h.imp_left fun same => List.mem_singleton.2 same
  | cons b as ih =>
    rw [List.eraseRepsBy.loop] at h
    split at h
    · rcases ih h with mem | mem
      · rcases List.mem_cons.1 mem with rfl | mem
        · exact .inl (List.mem_cons_self ..)
        · exact .inl (List.mem_cons_of_mem _ (List.mem_cons_of_mem _ mem))
      · exact .inr mem
    · rcases ih h with mem | mem
      · exact .inl (List.mem_cons_of_mem _ mem)
      · rcases List.mem_cons.1 mem with rfl | mem
        · exact .inl (List.mem_cons_self ..)
        · exact .inr mem

theorem mem_of_mem_eraseRepsBy {α : Type} {r : α → α → Bool} {x : α} {as : List α}
    (h : x ∈ as.eraseRepsBy r) : x ∈ as := by
  cases as with
  | nil => cases h
  | cons a as => exact (mem_of_mem_loop h).resolve_right List.not_mem_nil

theorem exists_mem_loop {α κ : Type} [BEq κ] [LawfulBEq κ] {key : α → κ} {x : α}
    {as acc : List α} {a : α} (h : x ∈ a :: as ∨ x ∈ acc) :
    ∃ y ∈ List.eraseRepsBy.loop (fun a b => key a == key b) a as acc, key y = key x := by
  induction as generalizing a acc x with
  | nil =>
    refine ⟨x, ?_, rfl⟩
    rw [List.eraseRepsBy.loop, List.mem_reverse, List.mem_cons]
    rcases h with h | h
    · exact .inl (List.mem_singleton.1 h)
    · exact .inr h
  | cons b as ih =>
    rw [List.eraseRepsBy.loop]
    split
    next same =>
      have equal : key a = key b := by simpa using same
      rcases h with h | h
      · rcases List.mem_cons.1 h with rfl | h
        · exact ih (.inl (List.mem_cons_self ..))
        · rcases List.mem_cons.1 h with rfl | h
          · rw [← equal]
            exact ih (.inl (List.mem_cons_self ..))
          · exact ih (.inl (List.mem_cons_of_mem _ h))
      · exact ih (.inr h)
    next =>
      rcases h with h | h
      · rcases List.mem_cons.1 h with rfl | h
        · exact ih (.inr (List.mem_cons_self ..))
        · exact ih (.inl h)
      · exact ih (.inr (List.mem_cons_of_mem _ h))

theorem exists_mem_eraseRepsBy {α κ : Type} [BEq κ] [LawfulBEq κ] (key : α → κ) {x : α}
    {as : List α} (h : x ∈ as) :
    ∃ y ∈ as.eraseRepsBy fun a b => key a == key b, key y = key x := by
  cases as with
  | nil => cases h
  | cons a as => exact exists_mem_loop (.inl h)

theorem loop_eq_append {α : Type} {r : α → α → Bool} (a : α) (as acc : List α) :
    List.eraseRepsBy.loop r a as acc = acc.reverse ++ (a :: as).eraseRepsBy r := by
  show _ = _ ++ List.eraseRepsBy.loop r a as []
  induction as generalizing a acc with
  | nil => simp [List.eraseRepsBy.loop]
  | cons b as ih =>
    rw [List.eraseRepsBy.loop, List.eraseRepsBy.loop]
    split
    · rw [ih]
    · rw [ih, ih b [a]]
      simp

theorem eraseRepsBy_cons_cons {α : Type} (r : α → α → Bool) (a b : α) (as : List α) :
    (a :: b :: as).eraseRepsBy r =
      if r a b then (a :: as).eraseRepsBy r else a :: (b :: as).eraseRepsBy r := by
  rw [List.eraseRepsBy, List.eraseRepsBy.loop]
  split
  next same => rw [same, if_pos rfl, List.eraseRepsBy]
  next other => rw [other, if_neg Bool.false_ne_true, loop_eq_append, List.reverse_singleton,
      List.singleton_append]

theorem eraseRepsBy_eq_self {α : Type} {r : α → α → Bool} {as : List α}
    (apart : as.Pairwise fun a b => r a b = false) : as.eraseRepsBy r = as := by
  induction as with
  | nil => rfl
  | cons a as ih =>
    obtain ⟨first, rest⟩ := List.pairwise_cons.1 apart
    cases as with
    | nil => rfl
    | cons b as =>
      rw [eraseRepsBy_cons_cons, first b (by simp), if_neg Bool.false_ne_true, ih rest]

theorem pairwise_eraseRepsBy {α : Type} {r : α → α → Bool} {le lt : α → α → Prop}
    (strict : ∀ a b, le a b → r a b = false → lt a b) (trans : ∀ a b c, lt a b → le b c → lt a c)
    {as : List α} (sorted : as.Pairwise le) : (as.eraseRepsBy r).Pairwise lt := by
  cases as with
  | nil => exact .nil
  | cons a as =>
    induction as generalizing a with
    | nil => exact List.pairwise_singleton _ _
    | cons b as ih =>
      obtain ⟨first, rest⟩ := List.pairwise_cons.1 sorted
      rw [eraseRepsBy_cons_cons]
      split
      · exact ih a (List.pairwise_cons.2
          ⟨fun c mem => first c (List.mem_cons_of_mem _ mem), (List.pairwise_cons.1 rest).2⟩)
      next other =>
        have before := strict a b (first b (List.mem_cons_self ..)) (Bool.eq_false_iff.2 other)
        refine List.pairwise_cons.2 ⟨fun c mem => ?_, ih b rest⟩
        rcases List.mem_cons.1 (mem_of_mem_eraseRepsBy mem) with rfl | mem
        · exact before
        · exact trans a b c before ((List.pairwise_cons.1 rest).1 c mem)

/-! ## Numbers -/

theorem number?_ofPairs {pairs : List (String × Nat)} {pair : String × Nat} (h : pair ∈ pairs) :
    ∃ number, (Numbers.ofPairs pairs).number? pair.1 = some number := by
  have mem : pair ∈ pairs.reverse.mergeSort fun a b => a.1 ≤ b.1 := by
    rw [List.mem_mergeSort, List.mem_reverse]
    exact h
  obtain ⟨y, kept, same⟩ := exists_mem_eraseRepsBy Prod.fst mem
  cases found : (Numbers.ofPairs pairs).number? pair.1 with
  | some number => exact ⟨number, rfl⟩
  | none =>
    have absent := List.lookup_eq_none_iff.1 found y kept
    simp [same] at absent

theorem number?_ofCollection {collection : Collection} {placeholder : String}
    (h : collection.Holds placeholder) :
    ∃ number, (Catalog.ofCollection collection).numbers.number? placeholder = some number := by
  obtain ⟨e, mem, rfl⟩ := h
  have listed : e ∈ (Catalog.ofCollection collection).entries :=
    (Catalog.ofEntries_perm collection.entries).mem_iff.2 mem
  obtain ⟨index, found⟩ := List.mem_iff_getElem?.1 listed
  have pair : (e, index) ∈ (Catalog.ofCollection collection).entries.zipIdx :=
    List.mem_zipIdx_iff_getElem?.2 found
  exact number?_ofPairs (List.mem_map.2 ⟨_, pair, rfl⟩)

end BundlePrep.Message
