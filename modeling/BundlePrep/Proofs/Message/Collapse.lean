import BundlePrep.FileTree.Path
import BundlePrep.Proofs.Message.Arrival

/-!
# Entries that collapse

Two entries collapse in a collection exactly if they have one placeholder. A placeholder says of which
flavor it is, but not where the id of the module ends: a number sign in an id or in a key looks like
the one between them. So entries of two modules collapse for some keys exactly if the id of one module
goes on with a number sign where the id of the other one ends.
-/

set_option autoImplicit false

namespace BundlePrep.Message

open BundlePrep.FileTree

theorem placeholder_eq_iff {flavor flavor' : Flavor} {moduleId moduleId' key key' : String} :
    placeholder flavor moduleId key = placeholder flavor' moduleId' key' ↔
      flavor = flavor' ∧
        moduleId.toList ++ '#' :: key.toList = moduleId'.toList ++ '#' :: key'.toList := by
  constructor
  · intro same
    obtain rfl := flavor_of_placeholder same
    have texts := congrArg String.toList same
    rw [toList_placeholder, toList_placeholder, List.append_cancel_left_eq] at texts
    exact ⟨rfl, List.append_cancel_right texts⟩
  · rintro ⟨rfl, said⟩
    rw [← String.toList_inj, toList_placeholder, toList_placeholder, said]

/-- The id of a module goes on with a number sign where that of another module ends. -/
def GoesOn (moduleId moduleId' : String) : Prop :=
  ∃ rest, moduleId'.toList = moduleId.toList ++ '#' :: rest

theorem GoesOn.collide {moduleId moduleId' : String} (h : GoesOn moduleId moduleId')
    (flavor : Flavor) : ∃ key key', moduleId ≠ moduleId' ∧
      placeholder flavor moduleId key = placeholder flavor moduleId' key' := by
  obtain ⟨rest, whole⟩ := h
  refine ⟨String.ofList (rest ++ ['#']), "", ?_, ?_⟩
  · rintro rfl
    have length := congrArg List.length whole
    simp at length
  · rw [placeholder_eq_iff, whole]
    simp

/-- Of two texts that are each cut at a character and are equal, the first parts are equal or one
goes on with the character where the other ends. -/
theorem eq_or_goesOn {moduleId moduleId' : String} {key key' : List Char}
    (same : moduleId.toList ++ '#' :: key = moduleId'.toList ++ '#' :: key') :
    moduleId = moduleId' ∧ key = key' ∨ GoesOn moduleId moduleId' ∨ GoesOn moduleId' moduleId := by
  rcases List.append_eq_append_iff.1 same with ⟨part, first, second⟩ | ⟨part, first, second⟩
  · cases part with
    | nil =>
      rw [List.append_nil] at first
      exact .inl ⟨String.toList_inj.1 first.symm, (List.cons.inj second).2⟩
    | cons c rest =>
      obtain ⟨rfl, -⟩ := List.cons.inj second
      exact .inr (.inl ⟨rest, first⟩)
  · cases part with
    | nil =>
      rw [List.append_nil] at first
      exact .inl ⟨String.toList_inj.1 first, (List.cons.inj second).2.symm⟩
    | cons c rest =>
      obtain ⟨rfl, -⟩ := List.cons.inj second
      exact .inr (.inr ⟨rest, first⟩)

theorem size_add_add (a b : Entry) :
    ((Collection.empty.add a).add b).size = 1 ↔ a.placeholder = b.placeholder := by
  by_cases same : a.placeholder = b.placeholder <;>
    simp [Collection.empty, Collection.add, Collection.size, same]

/-- A text is the id of one of some files, seen from a root. -/
def IsIdAmong (root : Path) (files : Path → Prop) (moduleId : String) : Prop :=
  ∃ file, files file ∧ file.moduleId? root = some moduleId

/-- Whatever files there are under a root, two entries of their modules collapse only if they are of
one flavor, module and key, exactly if no id of a module goes on with a number sign where another one
ends. The flavor is read off a placeholder in any case. -/
theorem collapse_only_equal_iff (root : Path) (files : Path → Prop) :
    (∀ flavor moduleId key,
      Flavor.ofPlaceholder? (placeholder flavor moduleId key) = some flavor) ∧
    (∀ a b : Entry, ((Collection.empty.add a).add b).size = 1 ↔ a.placeholder = b.placeholder) ∧
    ((∀ flavor flavor' moduleId moduleId' key key', IsIdAmong root files moduleId →
        IsIdAmong root files moduleId' →
        placeholder flavor moduleId key = placeholder flavor' moduleId' key' →
        flavor = flavor' ∧ moduleId = moduleId' ∧ key = key') ↔
      ∀ moduleId moduleId', IsIdAmong root files moduleId → IsIdAmong root files moduleId' →
        ¬GoesOn moduleId moduleId') := by
  refine ⟨ofPlaceholder?_placeholder, size_add_add, ?_, ?_⟩
  · intro apart moduleId moduleId' known known' goesOn
    obtain ⟨key, key', other, same⟩ := goesOn.collide .blank
    exact other (apart _ _ _ _ key key' known known' same).2.1
  · intro none flavor flavor' moduleId moduleId' key key' known known' same
    obtain ⟨flavors, said⟩ := placeholder_eq_iff.1 same
    rcases eq_or_goesOn said with ⟨modules, keys⟩ | goesOn | goesOn
    · exact ⟨flavors, modules, String.toList_inj.1 keys⟩
    · exact absurd goesOn (none _ _ known known')
    · exact absurd goesOn (none _ _ known' known)

/-- The modules of two files under one root whose entries collapse: a key of the first with a number
sign in it looks like a key of the second. -/
theorem collapse_of_modules :
    (Path.ofText "src/a.ts").moduleId? (.ofText "src") = some "a" ∧
      (Path.ofText "src/a#b.ts").moduleId? (.ofText "src") = some "a#b" ∧
      placeholder .blank "a" "b#c" = placeholder .blank "a#b" "c" ∧
      ((Collection.empty.add (.ofCall .blank "a" (.plain "b#c") "one")).add
        (.ofCall .blank "a#b" (.plain "c") "two")).size = 1 ∧
      ¬∀ flavor flavor' moduleId moduleId' key key',
        IsIdAmong (.ofText "src") (fun _ => True) moduleId →
        IsIdAmong (.ofText "src") (fun _ => True) moduleId' →
        placeholder flavor moduleId key = placeholder flavor' moduleId' key' →
        flavor = flavor' ∧ moduleId = moduleId' ∧ key = key' := by
  have first : (Path.ofText "src/a.ts").moduleId? (.ofText "src") = some "a" := by decide +kernel
  have second : (Path.ofText "src/a#b.ts").moduleId? (.ofText "src") = some "a#b" := by
    decide +kernel
  have same : placeholder .blank "a" "b#c" = placeholder .blank "a#b" "c" := by decide +kernel
  refine ⟨first, second, same, (size_add_add _ _).2 same, ?_⟩
  intro apart
  have equal := apart .blank .blank "a" "a#b" "b#c" "c" ⟨_, trivial, first⟩ ⟨_, trivial, second⟩ same
  exact absurd equal.2.1 (by decide)

end BundlePrep.Message
