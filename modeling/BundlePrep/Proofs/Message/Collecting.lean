import BundlePrep.Proofs.Message.Numbering
import Mathlib.Data.List.Induction

/-!
# What a collection holds

Entries are added one by one or file by file. A collection holds for each placeholder the entry that
was added last, and no two of its entries have one placeholder. The entries are taken from it in any
order, and the catalog that is made of them is the same.
-/

set_option autoImplicit false

namespace BundlePrep.Message

/-- One call on a collection. -/
inductive Addition where
  | one (entry : Entry)
  | all (entries : List Entry)
  deriving DecidableEq, Repr

/-- The entries of some calls, in their order. -/
def added (additions : List Addition) : List Entry :=
  additions.flatMap fun
    | .one entry => [entry]
    | .all entries => entries

/-- The entry that was added last with a placeholder. -/
def lastWith? (entries : List Entry) (placeholder : String) : Option Entry :=
  entries.reverse.find? (·.placeholder = placeholder)

def Distinct (entries : List Entry) : Prop := (entries.map Entry.placeholder).Nodup

instance (entries : List Entry) : Decidable (Distinct entries) :=
  inferInstanceAs (Decidable (entries.map Entry.placeholder).Nodup)

theorem lastWith?_append (xs ys : List Entry) (placeholder : String) :
    lastWith? (xs ++ ys) placeholder =
      (lastWith? ys placeholder).or (lastWith? xs placeholder) := by
  rw [lastWith?, List.reverse_append, List.find?_append]
  rfl

theorem lastWith?_singleton (entry : Entry) (placeholder : String) :
    lastWith? [entry] placeholder =
      if entry.placeholder = placeholder then some entry else none := by
  by_cases same : entry.placeholder = placeholder <;> simp [lastWith?, same]

theorem placeholder_of_lastWith? {entries : List Entry} {placeholder : String} {e : Entry}
    (h : lastWith? entries placeholder = some e) : e.placeholder = placeholder := by
  simpa using List.find?_some h

theorem mem_of_lastWith? {entries : List Entry} {placeholder : String} {e : Entry}
    (h : lastWith? entries placeholder = some e) : e ∈ entries :=
  List.mem_reverse.1 (List.mem_of_find?_eq_some h)

theorem lastWith?_of_mem {entries : List Entry} {entry : Entry} (h : entry ∈ entries) :
    ∃ e, lastWith? entries entry.placeholder = some e := by
  rw [← Option.isSome_iff_exists, lastWith?, List.find?_isSome]
  exact ⟨entry, List.mem_reverse.2 h, by simp⟩

namespace Collection

def perform (collection : Collection) : Addition → Collection
  | .one entry => collection.add entry
  | .all entries => collection.addAll entries

/-- What an empty collection becomes by some calls. -/
def ofAdditions (additions : List Addition) : Collection := additions.foldl perform empty

theorem ofAdditions_eq (additions : List Addition) :
    ofAdditions additions = empty.addAll (added additions) := by
  suffices all : ∀ collection, additions.foldl perform collection =
      collection.addAll (added additions) from all empty
  induction additions with
  | nil => exact fun _ => rfl
  | cons addition additions ih =>
    intro collection
    rw [List.foldl_cons, ih]
    cases addition with
    | one entry => exact (addAll_append collection [entry] (added additions)).symm
    | all entries => exact (addAll_append collection entries (added additions)).symm

theorem mem_addAll {entries : List Entry} {e : Entry} :
    e ∈ (empty.addAll entries).entries ↔ lastWith? entries e.placeholder = some e := by
  induction entries using List.reverseRecOn with
  | nil => simp [addAll, empty, lastWith?]
  | append_singleton entries entry ih =>
    have step : empty.addAll (entries ++ [entry]) = (empty.addAll entries).add entry :=
      addAll_append empty entries [entry]
    rw [step, mem_add, ih, lastWith?_append, lastWith?_singleton]
    by_cases same : entry.placeholder = e.placeholder
    · simp [same, eq_comm]
    · have other : e ≠ entry := fun eq => same (congrArg Entry.placeholder eq).symm
      simp [same, other, Ne.symm same]

theorem distinct_addAll (entries : List Entry) : Distinct (empty.addAll entries).entries := by
  induction entries using List.reverseRecOn with
  | nil => exact List.nodup_nil
  | append_singleton entries entry ih =>
    have step : empty.addAll (entries ++ [entry]) = (empty.addAll entries).add entry :=
      addAll_append empty entries [entry]
    have kept : Distinct ((empty.addAll entries).entries.filter
        (·.placeholder != entry.placeholder)) :=
      ih.sublist (List.filter_sublist.map Entry.placeholder)
    rw [step, Distinct, add, List.map_cons, List.nodup_cons]
    refine ⟨?_, kept⟩
    simp

end Collection

/-- A catalog of the entries of a collection, in whatever order they are taken from it. -/
def Finalizes (collection : Collection) (catalog : Catalog) : Prop :=
  ∃ drained : List Entry, drained.Perm collection.entries ∧ catalog = Catalog.ofEntries drained

end BundlePrep.Message
