import BundlePrep.Proofs.Job.Effects
import BundlePrep.Proofs.Job.Scanning
import BundlePrep.Proofs.Message.Cut

/-!
# One file after another

While the files of a project are worked on, the outputs of earlier ones are there already. As long as
no output takes the place of a source, each file is read as it was at the start.
-/

set_option autoImplicit false

namespace BundlePrep.Job

open BundlePrep.FileTree BundlePrep.FileTree.Tree BundlePrep.Message BundlePrep.Script

/-- What is made of a file, and where it is written. -/
structure Output where
  path : Path
  extraction : Extraction
  deriving DecidableEq, Repr

namespace Output

def code (out : Output) : String := out.extraction.code

def entries (out : Output) : List Entry := out.extraction.entries

/-- The file that is written. -/
def file (out : Output) : Path × ByteArray := (out.path, out.code.toUTF8)

end Output

def outputOf (options : ExtractOptions) (file : Path) (code : String) : Except Failure Output := do
  let some moduleId := file.moduleId? options.sourceRoot
    | throw (.ofText s!"{file.text} is not under the source root {options.sourceRoot.text}")
  let extraction ← (extract (.ofExtension file.extension?) moduleId code).mapError
    (extractFailure file.text)
  let inner ← relativeTo options.sourceRoot file
  return ⟨options.outDir.join inner, extraction⟩

/-- What is made of a file of a tree, before anything is written. -/
def prepare (options : ExtractOptions) (tree : Tree) (file : Path) : Except Failure Output :=
  (tree.readText file).mapError (fun e => ⟨[s!"Failed to read file: {file.text}"], .system e⟩) >>=
    outputOf options file

theorem exists_of_bind_eq_ok {ε α β : Type} {x : Except ε α} {f : α → Except ε β} {b : β}
    (h : x >>= f = .ok b) : ∃ a, x = .ok a ∧ f a = .ok b := by
  cases x with
  | error e => cases h
  | ok a => exact ⟨a, rfl, h⟩

theorem prepare_eq_ok {options : ExtractOptions} {tree : Tree} {file : Path} {out : Output}
    (h : prepare options tree file = .ok out) : ∃ code moduleId inner,
      tree.readText file = .ok code ∧ file.moduleId? options.sourceRoot = some moduleId ∧
        extract (.ofExtension file.extension?) moduleId code = .ok out.extraction ∧
        file.below? options.sourceRoot = some inner ∧ out.path = options.outDir.join inner := by
  rw [prepare] at h
  obtain ⟨code, read, h⟩ := exists_of_bind_eq_ok h
  rw [outputOf] at h
  split at h
  next moduleId known =>
    obtain ⟨extraction, extracted, h⟩ := exists_of_bind_eq_ok h
    obtain ⟨inner, relative, h⟩ := exists_of_bind_eq_ok h
    rw [relativeTo] at relative
    split at relative
    next below =>
      obtain rfl := Except.ok.inj relative
      obtain rfl := Except.ok.inj h
      exact ⟨code, moduleId, _, mapError_eq_ok read, known, mapError_eq_ok extracted, below, rfl⟩
    next => cases relative
  next => cases h

/-- The names of the artifacts. -/
def artifactNames : List String := (Catalog.empty.artifacts "").map Prod.fst

/-- The files that are worked on. -/
def sourceFiles (options : ExtractOptions) (tree : Tree) : List Path :=
  (scan tree options.sourceRoot options.includes options.ignores sourceExtensions).files

theorem run_extractFile (options : ExtractOptions) (file : Path) (work : Work) :
    (extractFile options file).run.run work =
      match prepare options work.tree file with
      | .error failure => (.error failure, work)
      | .ok out =>
        (((Run.writeFile out.path out.code).run.run work).1.map fun _ => out.entries,
          ((Run.writeFile out.path out.code).run.run work).2) := by
  rw [extractFile, prepare, Run.run_bind, Run.run_readFile]
  cases work.tree.readText file with
  | error e => rfl
  | ok code =>
    show _ = match outputOf options file code with | .error _ => _ | .ok _ => _
    rw [outputOf]
    simp only [Except.mapError]
    cases file.moduleId? options.sourceRoot with
    | none => rfl
    | some moduleId =>
      simp only [Run.run_bind]
      cases extract (.ofExtension file.extension?) moduleId code with
      | error e => rfl
      | ok extraction =>
        cases relativeTo options.sourceRoot file with
        | error e => rfl
        | ok inner =>
          simp only [Run.run_ofExcept]
          show _ = (((Run.writeFile (options.outDir.join inner) extraction.code).run.run work).1.map
            fun _ => extraction.entries,
            ((Run.writeFile (options.outDir.join inner) extraction.code).run.run work).2)
          rcases (Run.writeFile (options.outDir.join inner) extraction.code).run.run work with
            ⟨e | a, next⟩ <;> rfl

/-- No output takes the place of a source, of another output or of an artifact. -/
structure Clear (options : ExtractOptions) (tree : Tree) : Prop where
  sources : ∀ file ∈ sourceFiles options tree, ∀ out, prepare options tree file = .ok out →
    ∀ other ∈ sourceFiles options tree, tree.target out.path ≠ tree.target other
  outputs : ∀ file ∈ sourceFiles options tree, ∀ out, prepare options tree file = .ok out →
    ∀ other ∈ sourceFiles options tree, ∀ out', prepare options tree other = .ok out' →
      tree.target out.path = tree.target out'.path → out.code = out'.code
  artifacts : ∀ file ∈ sourceFiles options tree, ∀ out, prepare options tree file = .ok out →
    ∀ directory ∈ options.outDir :: options.extraOutDirs, ∀ name ∈ artifactNames,
      tree.target out.path ≠ tree.target (directory.child name)

/-! ## Turns -/

/-- Files that were worked on one after another, each as it was at the start: what each of them gave,
the outputs that were written, the last one first, and what is there in the end. -/
inductive Worked (options : ExtractOptions) (tree : Tree) :
    List (Path × Except Failure (List Entry)) → List (Path × ByteArray) → Work → Prop
  | start (warnings : List ScanWarning) : Worked options tree [] [] ⟨tree, warnings⟩
  | refused {results : List (Path × Except Failure (List Entry))}
      {written : List (Path × ByteArray)} {work : Work} {file : Path} {failure : Failure}
      (before : Worked options tree results written work)
      (refused : prepare options tree file = .error failure) :
      Worked options tree (results ++ [(file, .error failure)]) written work
  | barred {results : List (Path × Except Failure (List Entry))}
      {written : List (Path × ByteArray)} {work after : Work} {file : Path} {out : Output}
      {failure : Failure} (before : Worked options tree results written work)
      (prepared : prepare options tree file = .ok out)
      (barred : (Run.writeFile out.path out.code).run.run work = (.error failure, after)) :
      Worked options tree (results ++ [(file, .error failure)]) written after
  | written {results : List (Path × Except Failure (List Entry))}
      {written : List (Path × ByteArray)} {work after : Work} {file : Path} {out : Output}
      (before : Worked options tree results written work)
      (prepared : prepare options tree file = .ok out)
      (done : (Run.writeFile out.path out.code).run.run work = (.ok (), after)) :
      Worked options tree (results ++ [(file, .ok out.entries)]) (out.file :: written) after

namespace Worked

variable {options : ExtractOptions} {tree : Tree}
  {results : List (Path × Except Failure (List Entry))} {written : List (Path × ByteArray)}
  {work : Work}

theorem reached (h : Worked options tree results written work) :
    Written written tree work.tree := by
  induction h with
  | start => exact .none (.refl _)
  | refused _ _ ih => exact ih
  | barred _ _ barred ih => exact ih.trans (.none (Run.later_of_writeFile_error barred))
  | written _ _ done ih => exact ih.trans ((Run.writes_writeFile _ _).done done)

theorem exists_of_mem_written (h : Worked options tree results written work)
    {file : Path × ByteArray} (mem : file ∈ written) : ∃ source out,
      (source, .ok out.entries) ∈ results ∧ prepare options tree source = .ok out ∧
        file = out.file := by
  induction h with
  | start => cases mem
  | refused _ _ ih | barred _ _ _ ih =>
    obtain ⟨source, out, listed, found⟩ := ih mem
    exact ⟨source, out, List.mem_append_left _ listed, found⟩
  | @written _ _ _ _ source out _ prepared _ ih =>
    rcases List.mem_cons.1 mem with rfl | mem
    · exact ⟨source, out, by simp, prepared, rfl⟩
    · obtain ⟨source, out, listed, found⟩ := ih mem
      exact ⟨source, out, List.mem_append_left _ listed, found⟩

theorem exists_of_mem_results (h : Worked options tree results written work) {source : Path}
    {entries : List Entry} (mem : (source, .ok entries) ∈ results) : ∃ out,
      prepare options tree source = .ok out ∧ entries = out.entries ∧ out.file ∈ written := by
  induction h with
  | start => cases mem
  | refused _ _ ih | barred _ _ _ ih =>
    rcases List.mem_append.1 mem with mem | mem
    · exact ih mem
    · cases List.mem_singleton.1 mem
  | @written _ _ _ _ _ out _ prepared _ ih =>
    rcases List.mem_append.1 mem with mem | mem
    · obtain ⟨out, found, same, listed⟩ := ih mem
      exact ⟨out, found, same, List.mem_cons_of_mem _ listed⟩
    · cases List.mem_singleton.1 mem
      exact ⟨out, prepared, rfl, List.mem_cons_self ..⟩

end Worked

theorem prepare_of_readText {options : ExtractOptions} {tree later : Tree} {file : Path}
    (same : later.readText file = tree.readText file) :
    prepare options later file = prepare options tree file := by
  rw [prepare, prepare, same]

theorem exists_turn {options : ExtractOptions} {tree : Tree} (proper : tree.Proper)
    (clear : Clear options tree) {results : List (Path × Except Failure (List Entry))}
    {written : List (Path × ByteArray)} {work : Work} {file : Path}
    (h : Worked options tree results written work)
    (known : ∀ r ∈ results, r.1 ∈ sourceFiles options tree)
    (mem : file ∈ sourceFiles options tree) :
    ∃ result written' after, (extractFile options file).run.run work = (result, after) ∧
      Worked options tree (results ++ [(file, result)]) written' after := by
  have later := h.reached.later
  have untouched : (Written.places tree written).lookup (tree.target file) = none := by
    rw [List.lookup_eq_none_iff]
    intro place listed
    obtain ⟨put, put_written, rfl⟩ := List.mem_map.1 listed
    obtain ⟨source, out, gave, prepared, rfl⟩ := h.exists_of_mem_written put_written
    exact bne_iff_ne.2 (clear.sources source (known _ gave) out prepared file mem).symm
  have settled := settled_of_mem_scan proper mem
  obtain ⟨content, held⟩ := settled.file
  have same : prepare options work.tree file = prepare options tree file := prepare_of_readText
    (settled.readText later.grows ((later.file_of_lookup_eq_none untouched held).trans held.symm))
  rw [run_extractFile, same]
  cases prepared : prepare options tree file with
  | error failure => exact ⟨_, _, _, rfl, h.refused prepared⟩
  | ok out =>
    simp only
    rcases wrote : (Run.writeFile out.path out.code).run.run work with ⟨failure | _, after⟩
    · exact ⟨_, _, _, rfl, h.barred prepared wrote⟩
    · exact ⟨_, _, _, rfl, h.written prepared wrote⟩

theorem exists_turns {options : ExtractOptions} {tree : Tree} (proper : tree.Proper)
    (clear : Clear options tree) (files : List Path)
    (mem : ∀ file ∈ files, file ∈ sourceFiles options tree)
    {results : List (Path × Except Failure (List Entry))} {written : List (Path × ByteArray)}
    {work : Work} (h : Worked options tree results written work)
    (known : ∀ r ∈ results, r.1 ∈ sourceFiles options tree) :
    ∃ more written' after,
      (files.mapM fun file => do return (file, ← (extractFile options file).attempt) :
        Run (List (Path × Except Failure (List Entry)))).run.run work = (.ok more, after) ∧
      more.map Prod.fst = files ∧ Worked options tree (results ++ more) written' after := by
  induction files generalizing results written work with
  | nil => exact ⟨[], written, work, rfl, rfl, by rwa [List.append_nil]⟩
  | cons file files ih =>
    obtain ⟨own, rest⟩ := List.forall_mem_cons.1 mem
    obtain ⟨result, written', mid, ran, turned⟩ := exists_turn proper clear h known own
    have known' : ∀ r ∈ results ++ [(file, result)], r.1 ∈ sourceFiles options tree := by
      intro r listed
      rcases List.mem_append.1 listed with listed | listed
      · exact known r listed
      · rw [List.mem_singleton.1 listed]
        exact own
    obtain ⟨more, written', after, ran', same, turned⟩ := ih rest turned known'
    refine ⟨(file, result) :: more, written', after, ?_, by rw [List.map_cons, same], ?_⟩
    · have first : (do return (file, ← (extractFile options file).attempt) :
          Run (Path × Except Failure (List Entry))).run.run work = (.ok (file, result), mid) := by
        rw [Run.run_bind, Run.run_attempt, ran]
        rfl
      rw [List.mapM_cons, Run.run_bind, first]
      dsimp only
      rw [Run.run_bind, ran']
      rfl
    · rwa [List.append_assoc, List.singleton_append] at turned

end BundlePrep.Job
