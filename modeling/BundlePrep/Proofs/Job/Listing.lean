import BundlePrep.Proofs.Job.Relocating

/-!
# The files that a scan lists

A scan lists the regular files with its extensions that lie at or below its roots, but for those that an
ignored path or a valid ignore pattern leaves out. It lists them in the order of their components, and
of several spellings of a file one.
-/

set_option autoImplicit false

namespace BundlePrep.Job

open BundlePrep.FileTree BundlePrep.Glob

def ExpandsTo (tree : Tree) (text : String) (path : Path) : Prop :=
  ∃ s, SegmentPatterns.parse text = .ok s ∧
    path ∈ below tree (pathLimit + s.patterns.length) s.patterns s.start

/-- A place at which a scan starts: its base if nothing is included, a plain include that is there, or a
directory to which the pattern of an include is expanded. -/
inductive IsRoot (tree : Tree) (base : Path) (includes : List String) : Path → Prop where
  | base (none : includes = []) (there : tree.exists? base = true) : IsRoot tree base includes base
  | plain {text : String} (mem : text ∈ includes) (plain : hasWildcard text = false)
      (there : tree.exists? (base.join (.ofText text)) = true) :
      IsRoot tree base includes (base.join (.ofText text))
  | matched {text : String} {root : Path} (mem : text ∈ includes) (wild : hasWildcard text = true)
      (expands : ExpandsTo tree (base.join (.ofText text)).text root)
      (directory : tree.isDirectory root = true) : IsRoot tree base includes root

/-- A path, spelled as it is walked to from a root, that is to be listed. -/
structure Listed (tree : Tree) (base : Path) (includes ignores extensions : List String)
    (path : Path) : Prop where
  below : ∃ root names, IsRoot tree base includes root ∧ path = root.descend names ∧
    ∀ name ∈ names, Path.leadsDown name = true
  file : ∃ content, tree.kind? (tree.target path) = some (.file content)
  extension : ∃ extension ∈ extensions, path.extension? = some extension
  paths : ∀ text ∈ ignores, hasWildcard text = false →
    ¬(base.join (.ofText text)).components <+: path.components
  patterns : ∀ text ∈ ignores, hasWildcard text = true → ∀ pattern,
    Pattern.parse text = .ok pattern → pattern.accepts path.text = false

section

variable {tree : Tree} {base path root : Path} {includes ignores extensions : List String}

/-! ## Roots -/

theorem exists_of_isDirectory (h : tree.isDirectory path = true) : tree.exists? path = true := by
  rw [Tree.isDirectory, Option.any_eq_true] at h
  obtain ⟨item, found, -⟩ := h
  exact Tree.exists?_iff.2 ⟨item, toOption_eq_some.1 found⟩

theorem IsRoot.exists (h : IsRoot tree base includes root) : tree.exists? root = true := by
  cases h with
  | base none there => exact there
  | plain mem plain there => exact there
  | matched mem wild expands directory => exact exists_of_isDirectory directory

theorem mem_directories_iff {text : String} :
    (∃ found, directories tree text = .ok found ∧ root ∈ found) ↔
      ExpandsTo tree text root ∧ tree.isDirectory root = true := by
  rw [ExpandsTo, directories]
  cases SegmentPatterns.parse text with
  | error e => simp [bind, Except.bind]
  | ok s => simp [bind, Except.bind, pure, Except.pure]

theorem mem_rootsOf_iff {text : String} : root ∈ (rootsOf tree base text).1 ↔
    hasWildcard text = false ∧ root = base.join (.ofText text) ∧ tree.exists? root = true ∨
      hasWildcard text = true ∧ ExpandsTo tree (base.join (.ofText text)).text root ∧
        tree.isDirectory root = true := by
  rw [rootsOf, ← mem_directories_iff]
  cases hasWildcard text with
  | true => cases directories tree (base.join (.ofText text)).text <;> simp
  | false =>
    rw [if_neg Bool.false_ne_true]
    by_cases there : tree.exists? (base.join (.ofText text)) = true
    · rw [if_pos there, List.mem_singleton]
      constructor
      · rintro rfl
        exact .inl ⟨rfl, rfl, there⟩
      · rintro (⟨-, same, -⟩ | ⟨wild, -⟩)
        · exact same
        · cases wild
    · rw [if_neg there]
      constructor
      · intro mem
        cases mem
      · rintro (⟨-, rfl, here⟩ | ⟨wild, -⟩)
        · exact absurd here there
        · cases wild

theorem isRoot_iff : IsRoot tree base includes root ↔
    root ∈ (roots tree base includes).1 ∧ tree.exists? root = true := by
  rw [roots]
  by_cases none : includes = []
  · rw [if_pos (by simpa using none)]
    constructor
    · intro h
      cases h with
      | base _ there => exact ⟨List.mem_singleton_self _, there⟩
      | plain mem => rw [none] at mem; cases mem
      | matched mem => rw [none] at mem; cases mem
    · rintro ⟨mem, there⟩
      obtain rfl := List.mem_singleton.1 mem
      exact .base none there
  · rw [if_neg (by simpa using none)]
    simp only [List.flatMap_map, List.mem_flatMap, mem_rootsOf_iff]
    constructor
    · intro h
      refine ⟨?_, h.exists⟩
      cases h with
      | base whole => exact absurd whole none
      | plain mem plain there => exact ⟨_, mem, .inl ⟨plain, rfl, there⟩⟩
      | matched mem wild expands directory => exact ⟨_, mem, .inr ⟨wild, expands, directory⟩⟩
    · rintro ⟨⟨text, mem, ⟨plain, rfl, there⟩ | ⟨wild, expands, directory⟩⟩, -⟩
      · exact .plain mem plain there
      · exact .matched mem wild expands directory

theorem IsRoot.of_subset {more : List String} (h : IsRoot tree base includes root)
    (some : includes ≠ []) (sub : includes ⊆ more) : IsRoot tree base more root := by
  cases h with
  | base none => exact absurd none some
  | plain mem plain there => exact .plain (sub mem) plain there
  | matched mem wild expands directory => exact .matched (sub mem) wild expands directory

/-! ## Files -/

theorem mem_foundFiles_iff (proper : tree.Proper) : path ∈ foundFiles tree base includes ↔
    (∃ root names, IsRoot tree base includes root ∧ path = root.descend names ∧
      ∀ name ∈ names, Path.leadsDown name = true) ∧
    ∃ content, tree.kind? (tree.target path) = some (.file content) := by
  rw [foundFiles, List.mem_flatMap]
  constructor
  · rintro ⟨root, start, mem⟩
    cases found : tree.find root with
    | error e => rw [filesBelow, found] at mem; cases mem
    | ok item =>
      rw [filesBelow, found] at mem
      obtain ⟨names, rfl, down, file⟩ := (Tree.mem_files_iff proper found).1 mem
      exact ⟨⟨root, names, isRoot_iff.2 ⟨start, Tree.exists?_iff.2 ⟨item, found⟩⟩, rfl, down⟩, file⟩
  · rintro ⟨⟨root, names, isRoot, rfl, down⟩, file⟩
    obtain ⟨start, there⟩ := isRoot_iff.1 isRoot
    obtain ⟨item, found⟩ := Tree.exists?_iff.1 there
    refine ⟨root, start, ?_⟩
    rw [filesBelow, found]
    exact (Tree.mem_files_iff proper found).2 ⟨names, rfl, down, file⟩

theorem hasExtension_iff : hasExtension extensions path = true ↔
    ∃ extension ∈ extensions, path.extension? = some extension := by
  rw [hasExtension]
  cases path.extension? <;> simp

theorem any_startsWith_iff : ((ignoredPaths ignores).map base.join).any path.startsWith = false ↔
    ∀ text ∈ ignores, hasWildcard text = false →
      ¬(base.join (.ofText text)).components <+: path.components := by
  rw [ignoredPaths, List.any_eq_false]
  simp only [List.mem_map, List.mem_filter, Bool.not_eq_true', Path.startsWith,
    List.isPrefixOf_iff_prefix]
  constructor
  · intro h text mem plain
    exact h _ ⟨_, ⟨text, ⟨mem, plain⟩, rfl⟩, rfl⟩
  · rintro h _ ⟨_, ⟨text, ⟨mem, plain⟩, rfl⟩, rfl⟩
    exact h text mem plain

theorem leftOut_eq_false_iff : leftOut ignores path = false ↔
    ∀ text ∈ ignores, hasWildcard text = true → ∀ pattern, Pattern.parse text = .ok pattern →
      pattern.accepts path.text = false := by
  rw [leftOut, ignoredPatterns, List.any_eq_false]
  simp only [List.mem_filterMap, Bool.not_eq_true]
  constructor
  · intro h text mem wild pattern read
    refine h pattern ⟨text, mem, ?_⟩
    rw [if_pos wild, read]
    rfl
  · rintro h pattern ⟨text, mem, read⟩
    split at read
    next wild => exact h text mem wild pattern (toOption_eq_some.1 read)
    next => cases read

theorem mem_scan_iff (proper : tree.Proper) :
    path ∈ (foundFiles tree base includes).filter (fun file =>
      !(Ignores.ofTexts base ignores).1.contains file && hasExtension extensions file) ↔
      Listed tree base includes ignores extensions path := by
  rw [List.mem_filter, mem_foundFiles_iff proper, Bool.and_eq_true, Bool.not_eq_true',
    hasExtension_iff, ofTexts_eq, Ignores.contains, Bool.or_eq_false_iff, any_startsWith_iff]
  constructor
  · rintro ⟨⟨below, file⟩, ⟨paths, patterns⟩, extension⟩
    exact ⟨below, file, extension, paths, leftOut_eq_false_iff.1 patterns⟩
  · rintro ⟨below, file, extension, paths, patterns⟩
    exact ⟨⟨below, file⟩, ⟨paths, leftOut_eq_false_iff.2 patterns⟩, extension⟩

theorem exists_mem_scan (proper : tree.Proper)
    (h : Listed tree base includes ignores extensions path) :
    ∃ file ∈ (scan tree base includes ignores extensions).files,
      file.components = path.components := by
  rw [files_scan_eq]
  exact exists_mem_orderPaths ((mem_scan_iff proper).2 h)

theorem listed_of_mem_scan (proper : tree.Proper)
    (h : path ∈ (scan tree base includes ignores extensions).files) :
    Listed tree base includes ignores extensions path := by
  rw [files_scan_eq] at h
  exact (mem_scan_iff proper).1 (mem_of_mem_orderPaths h)

/-! ## More ignores and more includes -/

theorem Listed.of_ignores {fewer : List String}
    (h : Listed tree base includes ignores extensions path) (sub : fewer ⊆ ignores) :
    Listed tree base includes fewer extensions path where
  below := h.below
  file := h.file
  extension := h.extension
  paths text mem := h.paths text (sub mem)
  patterns text mem := h.patterns text (sub mem)

theorem Listed.of_includes {more : List String}
    (h : Listed tree base includes ignores extensions path) (some : includes ≠ [])
    (sub : includes ⊆ more) : Listed tree base more ignores extensions path where
  below := by
    obtain ⟨root, names, isRoot, same, down⟩ := h.below
    exact ⟨root, names, isRoot.of_subset some sub, same, down⟩
  file := h.file
  extension := h.extension
  paths := h.paths
  patterns := h.patterns

end

/-- In a proper tree a scan lists paths in strictly ascending order of their components. Each of them
is to be listed, and of each path that is to be listed a spelling is there. Hence a further ignore
never adds a file, and beside an include a further one never removes one. -/
theorem scan_lists {tree : Tree} (proper : tree.Proper) (base : Path)
    (includes ignores extensions : List String) :
    ((scan tree base includes ignores extensions).files.Pairwise fun p q => p.compare q = .lt) ∧
    (∀ file ∈ (scan tree base includes ignores extensions).files,
      Listed tree base includes ignores extensions file) ∧
    (∀ path, Listed tree base includes ignores extensions path →
      ∃ file ∈ (scan tree base includes ignores extensions).files,
        file.components = path.components) ∧
    (∀ more, ignores ⊆ more → ∀ path ∈ (scan tree base includes more extensions).files,
      ∃ file ∈ (scan tree base includes ignores extensions).files,
        file.components = path.components) ∧
    (includes ≠ [] → ∀ more, includes ⊆ more →
      ∀ path ∈ (scan tree base includes ignores extensions).files,
        ∃ file ∈ (scan tree base more ignores extensions).files,
          file.components = path.components) := by
  refine ⟨pairwise_orderPaths _, fun file => listed_of_mem_scan proper,
    fun path => exists_mem_scan proper, fun more sub path mem => ?_,
    fun some more sub path mem => ?_⟩
  · exact exists_mem_scan proper ((listed_of_mem_scan proper mem).of_ignores sub)
  · exact exists_mem_scan proper ((listed_of_mem_scan proper mem).of_includes some sub)

theorem isRoot_matched_copies : IsRoot copies ⟨["p"]⟩ ["b*"] ⟨["p", "b"]⟩ := by
  have named : (⟨["p"]⟩ : FileTree.Path).Named :=
    @FileTree.Path.named_mk [] ["p"] (.inl rfl) (by decide) (by decide)
  have read : patternsOf? "b*" = some [⟨[.char 'b', .anyText]⟩] := by decide +kernel
  have joined := @directories_join ⟨["p"]⟩ "b*" copies copied named rfl (by decide) rfl rfl
  rw [read] at joined
  have inside : (⟨["p", "b"]⟩ : FileTree.Path) ∈ (below copies (pathLimit + 1)
      [⟨[.char 'b', .anyText]⟩] (FileTree.Path.extend ⟨["p"]⟩ [])).filter copies.isDirectory := by
    refine List.mem_filter.2 ⟨?_, by decide⟩
    rw [below]
    refine List.mem_append_right _ (List.mem_flatMap.2 ⟨"b", ?_, ?_⟩)
    · exact List.mem_mergeSort.2 (by decide)
    · rw [if_neg (by decide), below.matched]
      decide +kernel
  obtain ⟨expands, directory⟩ := mem_directories_iff.1 ⟨_, toOption_eq_some.1 joined, inside⟩
  exact .matched (List.mem_singleton_self "b*") (by decide) expands directory

/-- A file below two roots, beside one that a path and one that a pattern leaves out; a file below the
directory that a pattern includes; and a file that is listed unless a pattern leaves it out. -/
theorem scan_lists_copies : copies.Proper ∧
    (∃ file ∈ (scan copies ⟨["p"]⟩ ["b", "*", "."] ["a.ts", "*/a*"] ["ts"]).files,
      file.components = [.normal "p", .normal "b", .normal "c.ts"]) ∧
    (∃ file ∈ (scan copies ⟨["p"]⟩ ["b*"] [] ["ts"]).files,
      file.components = [.normal "p", .normal "b", .normal "c.ts"]) ∧
    (∃ file ∈ (scan copies ⟨["p"]⟩ [] [] ["ts"]).files,
      file.components = [.normal "p", .normal "a.ts"]) ∧
    ⟨["p", "a.ts"]⟩ ∉ (scan copies ⟨["p"]⟩ [] ["*/a*"] ["ts"]).files := by
  have proper : copies.Proper := by decide
  have spared : ((Pattern.parse "*/a*").toOption.any (·.accepts "p/b/c.ts")) = false := by
    decide +kernel
  have left : ((Pattern.parse "*/a*").toOption.all (·.accepts "p/a.ts")) = true := by
    decide +kernel
  have read : ((Pattern.parse "*/a*").toOption).isSome = true := by decide +kernel
  have listed (includes ignores : List String) :=
    (scan_lists proper ⟨["p"]⟩ includes ignores ["ts"]).2.2.1
  refine ⟨proper, ?_, ?_, ?_, fun mem => ?_⟩
  · refine listed _ _ ⟨["p", "b", "c.ts"]⟩ ⟨⟨⟨["p", "b"]⟩, ["c.ts"], ?_, by decide, by decide⟩,
      ⟨⟨#[]⟩, rfl⟩, ⟨"ts", by decide, by decide⟩, by decide, fun text mem wild pattern read => ?_⟩
    · exact @IsRoot.plain copies ⟨["p"]⟩ _ "b" (by decide) (by decide) (by decide)
    · rcases List.mem_pair.1 mem with rfl | rfl
      · exact absurd wild (by decide)
      · rw [read] at spared
        exact spared
  · exact listed _ _ ⟨["p", "b", "c.ts"]⟩ ⟨⟨⟨["p", "b"]⟩, ["c.ts"], isRoot_matched_copies,
      by decide, by decide⟩, ⟨⟨#[]⟩, rfl⟩, ⟨"ts", by decide, by decide⟩, by simp, by simp⟩
  · exact listed _ _ ⟨["p", "a.ts"]⟩ ⟨⟨⟨["p"]⟩, ["a.ts"], .base rfl (by decide), by decide,
      by decide⟩, ⟨⟨#[]⟩, rfl⟩, ⟨"ts", by decide, by decide⟩, by simp, by simp⟩
  · obtain ⟨pattern, read⟩ := Option.isSome_iff_exists.1 read
    have own := ((scan_lists proper ⟨["p"]⟩ [] ["*/a*"] ["ts"]).2.1 _ mem).patterns "*/a*"
      (by decide) (by decide) pattern (toOption_eq_some.1 read)
    rw [show (⟨["p", "a.ts"]⟩ : Path).text = "p/a.ts" by decide] at own
    rw [read, Option.all_some, own] at left
    cases left

end BundlePrep.Job
