import BundlePrep.Json.Value
import BundlePrep.Message.Placeholder

/-!
# Catalogs

The entries of all files are collected, the last one of each placeholder. A catalog puts them in the
order of module, key and placeholder, which gives every message its number.
-/

set_option autoImplicit false

namespace BundlePrep.Message

/-! ## Collecting -/

/-- Entries of which no two have one placeholder. -/
structure Collection where
  entries : List Entry
  deriving DecidableEq, Repr

namespace Collection

def empty : Collection := ⟨[]⟩

/-- An entry takes the place of an earlier one with its placeholder. -/
def add (collection : Collection) (entry : Entry) : Collection :=
  ⟨entry :: collection.entries.filter (·.placeholder != entry.placeholder)⟩

def addAll (collection : Collection) (entries : List Entry) : Collection :=
  entries.foldl add collection

def size (collection : Collection) : Nat := collection.entries.length

def isEmpty (collection : Collection) : Bool := collection.entries.isEmpty

theorem addAll_nil (collection : Collection) : collection.addAll [] = collection := rfl

theorem addAll_append (collection : Collection) (xs ys : List Entry) :
    collection.addAll (xs ++ ys) = (collection.addAll xs).addAll ys := by
  simp [addAll]

theorem mem_add {collection : Collection} {entry e : Entry} :
    e ∈ (collection.add entry).entries ↔
      e = entry ∨ e ∈ collection.entries ∧ e.placeholder ≠ entry.placeholder := by
  simp [add]

end Collection

/-! ## Numbering -/

/-- The order of entries: by module, then by key, then by placeholder. -/
def Entry.compare (a b : Entry) : Ordering :=
  ((Ord.compare a.moduleId b.moduleId).then (Ord.compare a.key.primary b.key.primary)).then
    (Ord.compare a.placeholder b.placeholder)

structure Catalog where
  entries : List Entry
  deriving DecidableEq, Repr

abbrev Numbers := List (String × Nat)

namespace Numbers

/-- Of several pairs with one placeholder the last counts; the pairs stand in the order of the
placeholders. -/
def ofPairs (pairs : List (String × Nat)) : Numbers :=
  (pairs.reverse.mergeSort fun a b => a.1 ≤ b.1).eraseRepsBy fun a b => a.1 == b.1

def number? (numbers : Numbers) (placeholder : String) : Option Nat := numbers.lookup placeholder

end Numbers

/-- Puts a value behind those of a module. A module that has none yet comes behind all others. -/
def putBehind {α : Type} (moduleId : String) (value : α) :
    List (String × List α) → List (String × List α)
  | [] => [(moduleId, [value])]
  | (other, values) :: modules =>
    if other = moduleId then (other, values ++ [value]) :: modules
    else (other, values) :: putBehind moduleId value modules

namespace Catalog

def empty : Catalog := ⟨[]⟩

def ofEntries (entries : List Entry) : Catalog :=
  ⟨entries.mergeSort fun a b => (a.compare b).isLE⟩

def ofCollection (collection : Collection) : Catalog := ofEntries collection.entries

def size (catalog : Catalog) : Nat := catalog.entries.length

def isEmpty (catalog : Catalog) : Bool := catalog.entries.isEmpty

def numbers (catalog : Catalog) : Numbers :=
  .ofPairs (catalog.entries.zipIdx.map fun (entry, index) => (entry.placeholder, index))

def messages (catalog : Catalog) : List String := catalog.entries.map (·.message)

def groups (catalog : Catalog) : List (String × List Entry) :=
  (catalog.entries.splitBy fun a b => a.moduleId == b.moduleId).filterMap fun group =>
    group.head?.map fun entry => (entry.moduleId, group)

def keysByModule (catalog : Catalog) : List (String × List Key) :=
  catalog.groups.map fun (moduleId, entries) => (moduleId, entries.map (·.key))

def byModule {α : Type} (value : Entry → α) (catalog : Catalog) : List (String × List α) :=
  catalog.entries.foldl (fun modules e => putBehind e.moduleId (value e) modules) []

theorem ofEntries_perm (entries : List Entry) : (ofEntries entries).entries.Perm entries :=
  List.mergeSort_perm entries _

end Catalog

end BundlePrep.Message
