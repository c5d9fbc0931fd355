import BundlePrep.Proofs.Job.Separation

/-!
# An extraction stops or is completed

If files fail, an extraction fails as the first of them in the order of the scan, and nothing but
outputs of other files was written. If none fails, all outputs are there, and the artifacts as well if
there was an entry. Outputs have to be out of the way for that: one that takes the place of a source
changes what is read or what was read.
-/

set_option autoImplicit false

namespace BundlePrep.Job

open BundlePrep.FileTree BundlePrep.FileTree.Tree BundlePrep.Message

/-- Every file that is new or has changed is the output of a file that gave entries. -/
def OnlyOutputs (options : ExtractOptions) (tree : Tree)
    (results : List (Path × Except Failure (List Entry))) (after : Tree) : Prop :=
  ∀ location content, after.kind? location = some (.file content) →
    tree.kind? location = some (.file content) ∨
      ∃ file out, (file, .ok out.entries) ∈ results ∧ prepare options tree file = .ok out ∧
        location = tree.target out.path ∧ content = out.code.toUTF8

/-- An extraction that ends with the failure of a file, after all files have had their turns. -/
structure Stopped (options : ExtractOptions) (tree : Tree)
    (results : List (Path × Except Failure (List Entry))) (work : Work) (file : Path)
    (failure : Failure) : Prop where
  result : Run.on tree (extractFiles options) =
    (.error (failure.within s!"NLS transform failed for {file.text}"), work)
  only : OnlyOutputs options tree results work.tree

/-- An extraction from files that all gave entries. -/
structure Completed (options : ExtractOptions) (tree : Tree)
    (results : List (Path × Except Failure (List Entry))) (work : Work)
    (entries : List (List Entry)) : Prop where
  outputs : ∀ file ∈ sourceFiles options tree, ∃ out, prepare options tree file = .ok out ∧
    (Run.on tree (extractFiles options)).2.tree.read out.path = .ok out.code.toUTF8
  unneeded : entries.flatten = [] → OnlyOutputs options tree results work.tree ∧
    Run.on tree (extractFiles options) = (.ok (countsOf (sourceFiles options tree) entries), work)
  needed : entries.flatten ≠ [] →
    Run.on tree (extractFiles options) =
      (((writeAll options (catalogOf entries.flatten)).run.run work).1.map
        fun _ => countsOf (sourceFiles options tree) entries,
        ((writeAll options (catalogOf entries.flatten)).run.run work).2)
  artifacts : entries.flatten ≠ [] →
    ((writeAll options (catalogOf entries.flatten)).run.run work).1 = .ok () →
      ∀ directory ∈ options.outDir :: options.extraOutDirs, ∀ name text,
        (name, text) ∈ (catalogOf entries.flatten).artifacts options.globalName →
          (Run.on tree (extractFiles options)).2.tree.read (directory.child name) = .ok text.toUTF8

theorem Worked.onlyOutputs {options : ExtractOptions} {tree : Tree}
    {results : List (Path × Except Failure (List Entry))} {written : List (Path × ByteArray)}
    {work : Work} (h : Worked options tree results written work) :
    OnlyOutputs options tree results work.tree := by
  intro location content found
  rcases h.reached.later.of_file found with put | ⟨-, old⟩
  · obtain ⟨front, back, same, -⟩ := List.lookup_eq_some_iff.1 put
    have listed : (location, content) ∈ Written.places tree written := by rw [same]; simp
    obtain ⟨file, mem, own⟩ := List.mem_map.1 listed
    obtain ⟨source, out, gave, prepared, rfl⟩ := h.exists_of_mem_written mem
    exact .inr ⟨source, out, gave, prepared, (Prod.mk.inj own).1.symm, (Prod.mk.inj own).2.symm⟩
  · exact .inl old

section

variable {options : ExtractOptions} {tree : Tree}
  {results : List (Path × Except Failure (List Entry))} {work : Work}

theorem exists_entries {entries : List (List Entry)} (ok : results.map Prod.snd = entries.map .ok)
    (files : results.map Prod.fst = sourceFiles options tree) {file : Path}
    (mem : file ∈ sourceFiles options tree) : ∃ es, (file, .ok es) ∈ results := by
  rw [← files] at mem
  obtain ⟨⟨file, result⟩, listed, rfl⟩ := List.mem_map.1 mem
  have own : result ∈ entries.map .ok := ok ▸ List.mem_map_of_mem listed
  obtain ⟨es, -, rfl⟩ := List.mem_map.1 own
  exact ⟨es, listed⟩

theorem completed_of_worked (clear : Clear options tree) {written : List (Path × ByteArray)}
    (worked : Worked options tree results written work)
    (files : results.map Prod.fst = sourceFiles options tree) {entries : List (List Entry)}
    (ok : results.map Prod.snd = entries.map .ok)
    (on : Run.on tree (extractFiles options) =
      if entries.flatten = [] then (.ok (countsOf (sourceFiles options tree) entries), work)
      else (((writeAll options (catalogOf entries.flatten)).run.run work).1.map
        fun _ => countsOf (sourceFiles options tree) entries,
        ((writeAll options (catalogOf entries.flatten)).run.run work).2)) :
    Completed options tree results work entries := by
  have known : ∀ r ∈ results, r.1 ∈ sourceFiles options tree := fun r mem =>
    files ▸ List.mem_map_of_mem mem
  have writes := writes_writeAll options (catalogOf entries.flatten)
  by_cases none : entries.flatten = []
  · rw [if_pos none] at on
    refine ⟨fun file mem => ?_, fun _ => ⟨worked.onlyOutputs, on⟩, absurd none, absurd none⟩
    obtain ⟨es, listed⟩ := exists_entries ok files mem
    obtain ⟨out, prepared, -, read⟩ := read_output clear worked known listed
      (List.nil_subset (allArtifactFiles options .empty)) (.none (.refl work.tree))
    exact ⟨out, prepared, by rwa [on]⟩
  · rw [if_neg none] at on
    refine ⟨fun file mem => ?_, fun empty => absurd empty none, fun _ => on,
      fun _ done directory listed name text artifact => ?_⟩
    · obtain ⟨es, listed⟩ := exists_entries ok files mem
      obtain ⟨part, some, further⟩ := writes.exists_part work
      obtain ⟨out, prepared, -, read⟩ := read_output clear worked known listed some further
      exact ⟨out, prepared, by rwa [on]⟩
    · rw [on]
      exact read_artifact clear worked known (writes.done (Prod.ext done rfl)) listed artifact

end

/-- If no output is in the way, the files have their turns, each as it was at the start: either some
fail, and the first of them stops the extraction, or it is completed. -/
theorem stopped_or_completed {options : ExtractOptions} {tree : Tree} (proper : tree.Proper) :
    (Clear options tree → ∃ results written work,
      Worked options tree results written work ∧
      results.map Prod.fst = sourceFiles options tree ∧
      ((∃ done file failure rest, results = done ++ (file, .error failure) :: rest ∧
          (∀ r ∈ done, ∃ entries, r.2 = .ok entries) ∧
          Stopped options tree results work file failure) ∨
        ∃ entries : List (List Entry), results.map Prod.snd = entries.map .ok ∧
          Completed options tree results work entries)) ∧
    (Separate options tree → Clear options tree) := by
  refine ⟨fun clear => ?_, Separate.clear⟩
  obtain ⟨results, written, work, ran, files, worked⟩ :=
    exists_turns proper clear (sourceFiles options tree) (fun _ mem => mem)
      (.start (scan tree options.sourceRoot options.includes options.ignores
        sourceExtensions).warnings) (by simp)
  have on := on_extractFiles ran
  refine ⟨results, written, work, worked, files, ?_⟩
  rcases exists_first_failure results with ⟨done, file, failure, rest, rfl, ok⟩ | ⟨entries, ok⟩
  · rw [run_joined_error ok] at on
    exact .inl ⟨done, file, failure, rest, rfl, ok, on, worked.onlyOutputs⟩
  · rw [run_joined_ok ok] at on
    exact .inr ⟨entries, ok, completed_of_worked clear worked files ok on⟩

/-! ## One file of three -/

def script (text : String) : Item := .file text.toUTF8

def brokenTree : Tree :=
  ⟨.directory [("src", .directory
    [("a.ts", script "import \x7b localize \x7d from 'nls';\nlocalize('k', 'm');"),
      ("b.ts", .file ⟨#[255]⟩), ("c", .directory [("d.ts", script "let d;")])])], []⟩

def brokenOptions : ExtractOptions := ⟨⟨["src"]⟩, ⟨["out"]⟩, [⟨["dist"]⟩], [], [], "NLS"⟩

theorem sourceFiles_broken : sourceFiles brokenOptions brokenTree =
    [⟨["src", "a.ts"]⟩, ⟨["src", "b.ts"]⟩, ⟨["src", "c", "d.ts"]⟩] :=
  orderPaths_eq_self (by decide +kernel)

theorem separate_broken : Separate brokenOptions brokenTree where
  rooted := by decide
  inward := by
    have all : ∀ file ∈ sourceFiles brokenOptions brokenTree,
        (file.below? brokenOptions.sourceRoot).all
          (fun inner => !inner.components.contains .parent) = true := by
      rw [sourceFiles_broken]
      decide +kernel
    intro file mem inner below
    have own := all file mem
    rw [below] at own
    simpa using own
  outside := by
    rw [sourceFiles_broken]
    decide +kernel
  named := by
    rw [sourceFiles_broken]
    decide +kernel

theorem stopped_or_completed_broken : brokenTree.Proper ∧ Separate brokenOptions brokenTree ∧
    ∃ results written work, Worked brokenOptions brokenTree results written work ∧
      results.map Prod.fst = [⟨["src", "a.ts"]⟩, ⟨["src", "b.ts"]⟩, ⟨["src", "c", "d.ts"]⟩] ∧
      ((∃ done file failure rest, results = done ++ (file, .error failure) :: rest ∧
          (∀ r ∈ done, ∃ entries, r.2 = .ok entries) ∧
          Stopped brokenOptions brokenTree results work file failure) ∨
        ∃ entries : List (List Entry), results.map Prod.snd = entries.map .ok ∧
          Completed brokenOptions brokenTree results work entries) := by
  have proper : brokenTree.Proper := by decide +kernel
  obtain ⟨outcome, clear⟩ := @stopped_or_completed brokenOptions brokenTree proper
  refine ⟨proper, separate_broken, ?_⟩
  rw [← sourceFiles_broken]
  exact outcome (clear separate_broken)

/-! ## An output in place of a source -/

def nestedTree : Tree :=
  ⟨.directory [("src", .directory
    [("a.ts", script "let p;"),
      ("src", .directory [("a.ts", script "let q;"), ("z.ts", script "let a;")]),
      ("z.ts", script "let b;")])], []⟩

def nestedOptions : ExtractOptions := ⟨⟨["src"]⟩, ⟨["."]⟩, [], [], [], "NLS"⟩

theorem sourceFiles_nested : sourceFiles nestedOptions nestedTree =
    [⟨["src", "a.ts"]⟩, ⟨["src", "src", "a.ts"]⟩, ⟨["src", "src", "z.ts"]⟩, ⟨["src", "z.ts"]⟩] :=
  orderPaths_eq_self (by decide +kernel)

def nestedTurns : Except Failure (List (Path × Except Failure (List Entry))) × Work :=
  ((sourceFiles nestedOptions nestedTree).mapM fun file => do
    return (file, ← (extractFile nestedOptions file).attempt) :
      Run (List (Path × Except Failure (List Entry)))).run.run ⟨nestedTree, []⟩

theorem nestedTurns_fst : nestedTurns.1 = .ok
    ((sourceFiles nestedOptions nestedTree).map fun file => (file, .ok [])) := by
  rw [nestedTurns, sourceFiles_nested]
  decide +kernel

theorem on_nested : Run.on nestedTree (extractFiles nestedOptions) =
    (.ok ⟨4, 0, 0, 0⟩, nestedTurns.2) := by
  have on := @on_extractFiles nestedOptions nestedTree _ nestedTurns.2
    (Prod.ext nestedTurns_fst rfl)
  have entries : ((sourceFiles nestedOptions nestedTree).map fun file =>
      ((file, .ok []) : Path × Except Failure (List Entry))).map Prod.snd =
        [[], [], [], []].map Except.ok := by
    rw [sourceFiles_nested]
    rfl
  rw [run_joined_ok entries] at on
  rw [on, sourceFiles_nested]
  dsimp only
  have none : ([[], [], [], []] : List (List Entry)).flatten = [] := rfl
  rw [if_pos none, countsOf, none, catalogOf_nil]
  rfl

/-- An output directory outside the sources is not enough: outputs hold what was made of other texts
than their sources had at the start, and than they have in the end. -/
theorem nested_overwritten : nestedTree.Proper ∧
    ¬ nestedTree.target nestedOptions.sourceRoot <+: nestedTree.target nestedOptions.outDir ∧
    (∀ file ∈ sourceFiles nestedOptions nestedTree, ∀ name ∈ artifactNames,
      file.fileName? ≠ some name) ∧
    ∃ work, Run.on nestedTree (extractFiles nestedOptions) = (.ok ⟨4, 0, 0, 0⟩, work) ∧
      prepare nestedOptions nestedTree ⟨["src", "z.ts"]⟩ =
        .ok ⟨⟨[".", "z.ts"]⟩, ⟨"let b;", []⟩⟩ ∧
      work.tree.readText ⟨[".", "z.ts"]⟩ = .ok "let a;" ∧
      prepare nestedOptions work.tree ⟨["src", "a.ts"]⟩ =
        .ok ⟨⟨[".", "a.ts"]⟩, ⟨"let q;", []⟩⟩ ∧
      work.tree.readText ⟨[".", "a.ts"]⟩ = .ok "let p;" := by
  refine ⟨by decide +kernel, by decide +kernel, ?_, nestedTurns.2, on_nested, by decide +kernel, ?_⟩
  · rw [sourceFiles_nested]
    decide +kernel
  · rw [nestedTurns, sourceFiles_nested]
    decide +kernel

end BundlePrep.Job
