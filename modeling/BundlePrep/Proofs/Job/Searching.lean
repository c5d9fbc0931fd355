import BundlePrep.Job.Setup
import BundlePrep.Proofs.FileTree.Beginnings

/-!
# Where the configuration is found

The configuration that counts for a directory is that of the nearest directory at or above it, up to the
directory of a repository. The search goes through the beginnings of a path instead. They lead to the
directories above one after the other if the path has no two dots, but a relative path has no beginning
above the directory in which the tree works; and behind two dots stands a directory that may lie
elsewhere.
-/

set_option autoImplicit false

namespace BundlePrep.Job

open BundlePrep.FileTree

/-- Whether a directory holds something under the name of a configuration. -/
def isConfigured (tree : Tree) (location : Location) : Bool :=
  (tree.kind? (location ++ [configFile])).isSome

/-- Whether a directory is that of a repository. -/
def isRepository (tree : Tree) (location : Location) : Bool :=
  (tree.kind? (location ++ [".git"])).isSome

/-- The nearest directory with a configuration, at or above a directory, in the same repository. -/
structure Nearest (tree : Tree) (start location : Location) : Prop where
  above : location <+: start
  configured : isConfigured tree location = true
  between : ∀ place, location <+: place → place <+: start → place ≠ location →
    isConfigured tree place = false ∧ isRepository tree place = false

/-- The first of the beginnings of a path that leads to a directory with a configuration, before any
that leads to a repository without one. -/
structure FirstConfigured (tree : Tree) (start q : Path) : Prop where
  configured : isConfigured tree (tree.target q) = true
  front : ∃ front back, start.beginnings = front ++ q :: back ∧ ∀ r ∈ front,
    isConfigured tree (tree.target r) = false ∧ isRepository tree (tree.target r) = false

/-- The search from a path finds the nearest configuration, if there is one, and no other file. -/
def FindsNearest (tree : Tree) (start : Path) : Prop :=
  match findConfig tree start with
  | some file => ∃ location, Nearest tree (tree.target start) location ∧
      tree.exists? file = true ∧ tree.target file = location ++ [configFile]
  | none => ∀ location, ¬Nearest tree (tree.target start) location

section

variable {tree : Tree} {start p q file : Path} {location : Location}

/-! ## The search along the beginnings -/

structure Searchable (tree : Tree) (p : Path) : Prop where
  opens : tree.Opens p
  room : p.text.utf8ByteSize + 1 + configFile.utf8ByteSize < pathLimit

namespace Searchable

theorem of_mem_beginnings (h : Searchable tree p) (mem : q ∈ p.beginnings) :
    Searchable tree q where
  opens := h.opens.of_mem_beginnings mem
  room := by
    have shorter := Path.size_of_mem_beginnings mem
    have room := h.room
    omega

theorem exists_config (h : Searchable tree p) :
    tree.exists? (p.child configFile) = isConfigured tree (tree.target p) := by
  rw [Bool.eq_iff_iff, isConfigured]
  exact h.opens.exists?_child (by decide) (by decide) (by decide) h.room

theorem exists_repository (h : Searchable tree p) :
    tree.exists? (p.child ".git") = isRepository tree (tree.target p) := by
  rw [Bool.eq_iff_iff, isRepository]
  refine h.opens.exists?_child (by decide) (by decide) (by decide) ?_
  have shorter : ".git".utf8ByteSize ≤ configFile.utf8ByteSize := by decide
  have room := h.room
  omega

end Searchable

theorem firstConfigured_iff : FirstConfigured tree p q ↔
    if isConfigured tree (tree.target p) = true then q = p
    else if isRepository tree (tree.target p) = true then False
    else ∃ above, p.parent? = some above ∧ FirstConfigured tree above q := by
  constructor
  · rintro ⟨configured, front, back, whole, clear⟩
    cases front with
    | nil =>
      obtain rfl : q = p := Path.eq_of_beginnings_eq_cons whole
      rw [if_pos configured]
    | cons r front =>
      obtain rfl : r = p := Path.eq_of_beginnings_eq_cons whole
      obtain ⟨⟨bare, outside⟩, clear⟩ := List.forall_mem_cons.1 clear
      rw [if_neg (by simp [bare]), if_neg (by simp [outside])]
      cases parent : r.parent? with
      | none => simp [Path.beginnings_of_none parent] at whole
      | some above =>
        rw [Path.beginnings_of_some parent] at whole
        exact ⟨above, rfl, configured, front, back, (List.cons.inj whole).2, clear⟩
  · split_ifs with configured repository
    · rintro rfl
      obtain ⟨back, whole⟩ := q.exists_beginnings_eq_cons
      exact ⟨configured, [], back, whole, by simp⟩
    · exact False.elim
    · rintro ⟨above, parent, configured', front, back, whole, clear⟩
      refine ⟨configured', p :: front, back, ?_, List.forall_mem_cons.2 ⟨?_, clear⟩⟩
      · rw [Path.beginnings_of_some parent, whole, List.cons_append]
      · exact ⟨Bool.not_eq_true _ ▸ configured, Bool.not_eq_true _ ▸ repository⟩

/-- The search finds the configuration in the first directory along the beginnings that has one, and
stops at a repository. -/
theorem searchConfig_eq_some (h : Searchable tree p) {steps : Nat}
    (enough : p.components.length < steps) : searchConfig tree steps p = some file ↔
      ∃ q, FirstConfigured tree p q ∧ file = q.child configFile := by
  induction steps generalizing p with
  | zero => cases enough
  | succ steps ih =>
    simp only [firstConfigured_iff (p := p)]
    rw [searchConfig, h.exists_config, h.exists_repository]
    split_ifs
    · simp [eq_comm]
    · simp
    · cases parent : p.parent? with
      | none => simp
      | some above =>
        obtain ⟨c, -, components⟩ := Path.components_of_parent? parent
        have mem : above ∈ p.beginnings := by
          rw [Path.beginnings_of_some parent]
          exact List.mem_cons_of_mem _ above.self_mem_beginnings
        simpa using ih (h.of_mem_beginnings mem)
          (by simpa [components] using enough)

theorem findConfig_eq_some (h : Searchable tree start) : findConfig tree start = some file ↔
    ∃ q, FirstConfigured tree start q ∧ file = q.child configFile :=
  searchConfig_eq_some h (by have := start.length_components_le; omega)

theorem findConfig_eq_none (h : Searchable tree start) :
    findConfig tree start = none ↔ ∀ q, ¬FirstConfigured tree start q := by
  rw [Option.eq_none_iff_forall_ne_some]
  simp only [ne_eq, findConfig_eq_some h]
  exact ⟨fun none q found => none _ ⟨q, found, rfl⟩, fun none _ ⟨q, found, _⟩ => none q found⟩

/-! ## The nearest configuration -/

theorem Nearest.eq_of_prefix {start location other : Location} (h : Nearest tree start location)
    (h' : Nearest tree start other) (inside : location <+: other) : location = other := by
  by_contra apart
  have bare := (h.between other inside h'.above (Ne.symm apart)).1
  rw [h'.configured] at bare
  cases bare

theorem Nearest.eq {start location other : Location} (h : Nearest tree start location)
    (h' : Nearest tree start other) : location = other := by
  rcases List.prefix_or_prefix_of_prefix h.above h'.above with inside | inside
  · exact h.eq_of_prefix h' inside
  · exact (h'.eq_of_prefix h inside).symm

theorem FirstConfigured.nearest (h : FirstConfigured tree start q)
    (above : tree.target q <+: tree.target start) :
    Nearest tree (tree.target start) (tree.target q) where
  above := above
  configured := h.configured
  between place below inside other := by
    obtain ⟨front, back, whole, clear⟩ := h.front
    obtain ⟨r, mem, rfl⟩ := Tree.exists_mem_front whole below inside other
    exact clear r mem

theorem FirstConfigured.mem (h : FirstConfigured tree start q) : q ∈ start.beginnings := by
  obtain ⟨front, back, whole, -⟩ := h.front
  rw [whole]
  simp

/-- If one of the beginnings has a configuration, there is a first one at which the search stops, and it
stands no later. -/
theorem exists_first_stop {r : Path} (mem : r ∈ start.beginnings)
    (configured : isConfigured tree (tree.target r) = true) :
    ∃ q front back, start.beginnings = front ++ q :: back ∧ r ∈ q :: back ∧
      (isConfigured tree (tree.target q) = true ∨ isRepository tree (tree.target q) = true) ∧
      ∀ r ∈ front, isConfigured tree (tree.target r) = false ∧
        isRepository tree (tree.target r) = false := by
  let stops (q : Path) : Bool :=
    isConfigured tree (tree.target q) || isRepository tree (tree.target q)
  obtain ⟨q, first⟩ : ∃ q, start.beginnings.find? stops = some q := by
    rw [← Option.isSome_iff_exists, List.find?_isSome]
    exact ⟨r, mem, by simp [stops, configured]⟩
  obtain ⟨stop, front, back, whole, clear⟩ := List.find?_eq_some_iff_append.1 first
  refine ⟨q, front, back, whole, ?_, by simpa [stops] using stop,
    fun r mem => by simpa [stops] using clear r mem⟩
  rw [whole] at mem
  refine (List.mem_append.1 mem).resolve_left fun mem => ?_
  simpa [stops, configured] using clear r mem

/-- Without two dots the nearest configuration is found, unless it is above the location from which the
path starts. -/
theorem Nearest.exists_firstConfigured (h : Nearest tree (tree.target start) location)
    (inward : .parent ∉ start.components) (below : tree.startOf start <+: location) :
    ∃ q, FirstConfigured tree start q := by
  obtain ⟨r, mem, rfl⟩ := Tree.exists_mem_beginnings below h.above
  obtain ⟨q, front, back, whole, behind, stop, clear⟩ := exists_first_stop mem h.configured
  refine ⟨q, ?_, front, back, whole, clear⟩
  by_contra bare
  -- Then it is a repository that stops the search, and it lies strictly below the nearest configuration.
  have repository := stop.resolve_left bare
  rw [← Path.beginnings_of_append whole] at behind
  have inward' := Tree.target_prefix_of_mem tree inward (q := q) (by simp [whole])
  have inside := (Tree.target_prefix_of_mem tree inward'.1 behind).2
  have other : tree.target q ≠ tree.target r := by
    intro same
    rw [same, h.configured] at bare
    exact bare rfl
  rw [(h.between _ inside inward'.2 other).2] at repository
  cases repository

/-! ## When it is found -/

theorem findsNearest_iff (h : Searchable tree start) : FindsNearest tree start ↔
    (∀ q, FirstConfigured tree start q → tree.target q <+: tree.target start) ∧
      ((∀ q, ¬FirstConfigured tree start q) →
        ∀ location, ¬Nearest tree (tree.target start) location) := by
  rw [FindsNearest]
  cases found : findConfig tree start with
  | none =>
    have none := (findConfig_eq_none h).1 found
    exact ⟨fun clear => ⟨fun q first => absurd first (none q), fun _ => clear⟩,
      fun ⟨_, clear⟩ => clear none⟩
  | some file =>
    obtain ⟨q, first, rfl⟩ := (findConfig_eq_some h).1 found
    have down : Path.leadsDown configFile = true := by decide
    have place := Tree.target_child tree q down
    constructor
    · rintro ⟨location, near, -, same⟩
      rw [place] at same
      obtain rfl : tree.target q = location := (List.append_inj' same rfl).1
      refine ⟨fun r other => ?_, fun none => absurd first (none q)⟩
      have again := (findConfig_eq_some h).2 ⟨r, other, rfl⟩
      have place' := Tree.target_child tree r down
      rw [← Option.some.inj (found.symm.trans again), place] at place'
      rw [← (List.append_inj' place' rfl).1]
      exact near.above
    · rintro ⟨above, -⟩
      refine ⟨tree.target q, first.nearest (above q first), ?_, place⟩
      rw [(h.of_mem_beginnings first.mem).exists_config, first.configured]

theorem findsNearest_iff_below (h : Searchable tree start) (inward : .parent ∉ start.components) :
    FindsNearest tree start ↔ ∀ location, Nearest tree (tree.target start) location →
      tree.startOf start <+: location := by
  have inside (q : Path) (first : FirstConfigured tree start q) :=
    Tree.target_prefix_of_mem tree inward first.mem
  rw [findsNearest_iff h]
  constructor
  · rintro ⟨above, clear⟩ location near
    by_cases none : ∀ q, ¬FirstConfigured tree start q
    · exact absurd near (clear none location)
    · obtain ⟨q, first⟩ := not_forall_not.1 none
      rw [near.eq (first.nearest (above q first)), ← Tree.startOf_of_mem first.mem]
      exact Tree.startOf_prefix_target (inside q first).1
  · intro below
    refine ⟨fun q first => (inside q first).2, fun none location near => ?_⟩
    obtain ⟨q, first⟩ := near.exists_firstConfigured inward (below location near)
    exact none q first

/-- The search from a directory stops at the first beginning of its path with a configuration or a
repository. So what it finds is the nearest configuration if that beginning is not off the way to the
root, and if no beginning has a configuration there must be none. Of a path without two dots, only a
configuration above the directory in which the tree works is missed, and that by a relative path. -/
theorem findConfig_along_beginnings (directory : tree.isDirectory start = true)
    (room : start.text.utf8ByteSize + 1 + configFile.utf8ByteSize < pathLimit) :
    (∀ file, findConfig tree start = some file ↔
      ∃ q, FirstConfigured tree start q ∧ file = q.child configFile) ∧
    (FindsNearest tree start ↔
      (∀ q, FirstConfigured tree start q → tree.target q <+: tree.target start) ∧
        ((∀ q, ¬FirstConfigured tree start q) →
          ∀ location, ¬Nearest tree (tree.target start) location)) ∧
    (".." ∉ start.segments → (FindsNearest tree start ↔
      ∀ location, Nearest tree (tree.target start) location → tree.startOf start <+: location)) ∧
    (".." ∉ start.segments → start.isAbsolute = true → FindsNearest tree start) := by
  have searchable : Searchable tree start := ⟨.inl directory, room⟩
  have below (plain : ".." ∉ start.segments) :=
    findsNearest_iff_below searchable (Path.parent_not_mem_components plain)
  refine ⟨fun file => findConfig_eq_some searchable, findsNearest_iff searchable, below,
    fun plain absolute => (below plain).2 fun location _ => ?_⟩
  rw [Tree.startOf, absolute]
  exact List.nil_prefix

def nested : Tree where
  root := .directory [(".git", .directory []),
    ("d", .directory [("a", .directory [(configFile, .file ⟨#[]⟩),
      ("b", .directory [("c", .directory [])])])])]
  working := []

theorem findConfig_along_slashes : nested.isDirectory ⟨["", "d", "a", "b", "c", ""]⟩ = true ∧
    findConfig nested ⟨["", "d", "a", "b", "c", ""]⟩ = some ⟨["", "d", "a", configFile]⟩ ∧
    FindsNearest nested ⟨["", "d", "a", "b", "c", ""]⟩ :=
  have directory : nested.isDirectory ⟨["", "d", "a", "b", "c", ""]⟩ = true := by decide
  ⟨directory, by decide,
    (findConfig_along_beginnings directory (by decide)).2.2.2 (by decide) rfl⟩

/-- From a directory the search finds the configuration of one below, if the path comes from there. -/
theorem findConfig_below_start : nested.isDirectory ⟨["d", "a", ".."]⟩ = true ∧
    findConfig nested ⟨["d", "a", ".."]⟩ = some ⟨["d", "a", configFile]⟩ ∧
    ¬FindsNearest nested ⟨["d", "a", ".."]⟩ := by
  have found : findConfig nested ⟨["d", "a", ".."]⟩ = some ⟨["d", "a", configFile]⟩ := by decide
  refine ⟨by decide, found, ?_⟩
  rw [FindsNearest, found]
  rintro ⟨location, near, -, place⟩
  obtain rfl : ["d", "a"] = location := (List.append_inj' place rfl).1
  exact absurd near.above (by decide)

end

end BundlePrep.Job
