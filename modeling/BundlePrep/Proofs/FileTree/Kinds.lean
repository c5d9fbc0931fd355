import BundlePrep.FileTree.Tree
import Mathlib.Data.List.Basic

/-!
# What stands at a location

At a location a tree has a file, a directory or nothing. Paths are followed by looking at no more
than this, and putting a file or an empty directory somewhere changes it in one location only.
-/

set_option autoImplicit false

namespace BundlePrep.FileTree

/-- What an item is, whatever stands in a directory. -/
inductive Kind where
  | file (content : ByteArray)
  | directory

namespace Item

def kind : Item → Kind
  | .file content => .file content
  | .directory _ => .directory

/-- What is found at a location below an item. -/
def kind? (item : Item) (location : Location) : Option Kind := (item.at? location).map kind

def Leaf (item : Item) : Prop := ∀ name, item.entry? name = none

theorem leaf_file (content : ByteArray) : (Item.file content).Leaf := fun _ => rfl

theorem leaf_empty : (Item.directory []).Leaf := fun _ => rfl

theorem kind?_nil (item : Item) : item.kind? [] = some item.kind := rfl

theorem kind?_cons (item : Item) (name : String) (location : Location) :
    item.kind? (name :: location) = (item.entry? name).bind (·.kind? location) := by
  rw [kind?, at?, List.foldlM_cons]
  cases item.entry? name <;> rfl

theorem kind?_of_leaf {item : Item} (leaf : item.Leaf) (location : Location) :
    item.kind? location = if location = [] then some item.kind else none := by
  cases location with
  | nil => rfl
  | cons name location => rw [kind?_cons, leaf name, if_neg (by simp)]; rfl

theorem lookup_cons_eq {κ α : Type} [BEq κ] [LawfulBEq κ] [DecidableEq κ] (name other : κ) (a : α)
    (entries : List (κ × α)) :
    ((name, a) :: entries).lookup other =
      if other = name then some a else entries.lookup other := by
  by_cases same : other = name
  · rw [if_pos same, same, List.lookup_cons_self]
  · rw [if_neg same, List.lookup_cons, beq_eq_false_iff_ne.2 same]

theorem lookup_setEntry (name other : String) (item : Item) (entries : List (String × Item)) :
    (setEntry name item entries).lookup other =
      if other = name then some item else entries.lookup other := by
  induction entries with
  | nil => rw [setEntry, lookup_cons_eq]
  | cons entry entries ih =>
    obtain ⟨n, i⟩ := entry
    rw [setEntry]
    split
    next own =>
      subst own
      rw [lookup_cons_eq, lookup_cons_eq]
      split_ifs <;> rfl
    next apart =>
      rw [lookup_cons_eq, lookup_cons_eq, ih]
      by_cases same : other = n
      · rw [if_pos same, if_pos same, if_neg (same ▸ apart)]
      · rw [if_neg same, if_neg same]

theorem kind?_set {item new : Item} {above : Location} {name : String}
    (directory : item.kind? above = some .directory) (location : Location) :
    (item.set (above ++ [name]) new).kind? location =
      if above ++ [name] <+: location then new.kind? (location.drop (above.length + 1))
      else item.kind? location := by
  induction above generalizing item location with
  | nil =>
    cases item with
    | file content => cases directory
    | directory entries =>
      rw [List.nil_append, Item.set]
      cases location with
      | nil => simp [kind?_nil, kind]
      | cons n location =>
        rw [kind?_cons, kind?_cons, entry?, lookup_setEntry]
        by_cases same : n = name
        · simp [same]
        · simp [same, Ne.symm same, entry?]
  | cons a above ih =>
    rw [kind?_cons] at directory
    cases item with
    | file content => cases directory
    | directory entries =>
      obtain ⟨below, found, inner⟩ := Option.bind_eq_some_iff.1 directory
      have put : (Item.directory entries).set (a :: (above ++ [name])) new =
          .directory (setEntry a (below.set (above ++ [name]) new) entries) := by
        have found' : entries.lookup a = some below := found
        cases above <;> simp [Item.set, found']
      rw [List.cons_append, put]
      cases location with
      | nil => simp [kind?_nil, kind]
      | cons n location =>
        rw [kind?_cons, kind?_cons, entry?, lookup_setEntry]
        by_cases same : n = a
        · subst same
          have found' : entries.lookup n = some below := found
          simp [ih inner, entry?, found']
        · simp [same, Ne.symm same, entry?]

theorem kind?_above {item : Item} {above below : Location} {name : String}
    (h : (item.kind? (above ++ name :: below)).isSome) : item.kind? above = some .directory := by
  induction above generalizing item with
  | nil =>
    cases item with
    | file content => cases h
    | directory entries => rfl
  | cons a above ih =>
    rw [List.cons_append, kind?_cons] at h
    rw [kind?_cons]
    cases found : item.entry? a with
    | none => rw [found] at h; cases h
    | some inner => rw [found] at h; exact ih h

end Item

namespace Tree

/-- What is found at a location. -/
def kind? (tree : Tree) (location : Location) : Option Kind := tree.root.kind? location

theorem isDirectoryAt_iff {tree : Tree} {location : Location} :
    tree.isDirectoryAt location = true ↔ tree.kind? location = some .directory := by
  rw [isDirectoryAt, kind?, Item.kind?, at?]
  cases tree.root.at? location with
  | none => simp
  | some item => cases item <;> simp [Item.isDirectory, Item.kind]

theorem isSome_at? (tree : Tree) (location : Location) :
    (tree.at? location).isSome = (tree.kind? location).isSome := by
  rw [kind?, Item.kind?, Option.isSome_map, at?]

theorem kind?_above {tree : Tree} {above below : Location} {name : String}
    (h : (tree.kind? (above ++ name :: below)).isSome) : tree.kind? above = some .directory :=
  Item.kind?_above h

theorem kind?_setAt {tree : Tree} {above : Location} {name : String} {new : Item}
    (directory : tree.kind? above = some .directory)
    (free : tree.kind? (above ++ [name]) ≠ some .directory) (leaf : new.Leaf)
    (location : Location) : (tree.setAt (above ++ [name]) new).kind? location =
      if location = above ++ [name] then some new.kind else tree.kind? location := by
  rw [kind?, setAt, Item.kind?_set directory, Item.kind?_of_leaf leaf]
  split
  next inside =>
    obtain ⟨rest, rfl⟩ := inside
    cases rest with
    | nil => simp
    | cons n rest =>
      have below : tree.kind? (above ++ [name] ++ n :: rest) = none :=
        Option.not_isSome_iff_eq_none.1 fun inside => free (kind?_above inside)
      rw [if_neg (by simp), if_neg (by simp), below]
  next outside =>
    rw [if_neg (by rintro rfl; exact outside (List.prefix_refl _)), kind?]

end Tree

end BundlePrep.FileTree
