import BundlePrep.Proofs.Job.Turns

/-!
# What becomes of an extraction

If files fail, the first of them in the order of the scan decides, and nothing but outputs of other
files was written. If none fails, all outputs are there, and the artifacts if there was an entry.
-/

set_option autoImplicit false

namespace BundlePrep.Job

open BundlePrep.FileTree BundlePrep.FileTree.Tree BundlePrep.Message

/-! ## Results in the order of the scan -/

def joined (results : List (Path × Except Failure (List Entry))) : Run (List (List Entry)) :=
  results.mapM fun (file, result) =>
    Run.within s!"NLS transform failed for {file.text}" (ExceptT.mk (pure result))

theorem run_joined_cons (file : Path) (result : Except Failure (List Entry))
    (results : List (Path × Except Failure (List Entry))) (work : Work) :
    (joined ((file, result) :: results)).run.run work =
      match result with
      | .ok entries => (((joined results).run.run work).1.map (entries :: ·),
          ((joined results).run.run work).2)
      | .error failure =>
        (.error (failure.within s!"NLS transform failed for {file.text}"), work) := by
  rw [joined, List.mapM_cons, Run.run_bind, Run.run_within, Run.run_ofExcept]
  cases result with
  | error failure => rfl
  | ok entries =>
    simp only [Except.mapError]
    rw [Run.run_bind, ← joined]
    rcases (joined results).run.run work with ⟨e | es, after⟩ <;> rfl

theorem run_joined_ok {results : List (Path × Except Failure (List Entry))}
    {entries : List (List Entry)} (h : results.map Prod.snd = entries.map .ok) (work : Work) :
    (joined results).run.run work = (.ok entries, work) := by
  induction results generalizing entries with
  | nil =>
    obtain rfl := List.map_eq_nil_iff.1 h.symm
    rfl
  | cons r results ih =>
    obtain ⟨file, result⟩ := r
    obtain ⟨e, es, rfl, rfl, rest⟩ := List.map_eq_cons_iff.1 h.symm
    rw [run_joined_cons, ih rest.symm]
    rfl

theorem run_joined_error {done rest : List (Path × Except Failure (List Entry))} {file : Path}
    {failure : Failure} (ok : ∀ r ∈ done, ∃ entries, r.2 = .ok entries) (work : Work) :
    (joined (done ++ (file, .error failure) :: rest)).run.run work =
      (.error (failure.within s!"NLS transform failed for {file.text}"), work) := by
  induction done with
  | nil => rw [List.nil_append, run_joined_cons]
  | cons r done ih =>
    obtain ⟨own, others⟩ := List.forall_mem_cons.1 ok
    obtain ⟨other, result⟩ := r
    obtain ⟨entries, rfl⟩ := own
    rw [List.cons_append, run_joined_cons, ih others]
    rfl

theorem exists_first_failure (results : List (Path × Except Failure (List Entry))) :
    (∃ done file failure rest, results = done ++ (file, .error failure) :: rest ∧
        ∀ r ∈ done, ∃ entries, r.2 = .ok entries) ∨
      ∃ entries : List (List Entry), results.map Prod.snd = entries.map .ok := by
  induction results with
  | nil => exact .inr ⟨[], rfl⟩
  | cons r results ih =>
    obtain ⟨file, failure | entries⟩ := r
    · exact .inl ⟨[], file, failure, results, rfl, by simp⟩
    · rcases ih with ⟨done, other, failure, rest, same, ok⟩ | ⟨others, same⟩
      · exact .inl ⟨(file, .ok entries) :: done, other, failure, rest, by rw [same]; rfl,
          List.forall_mem_cons.2 ⟨⟨entries, rfl⟩, ok⟩⟩
      · exact .inr ⟨entries :: others, by rw [List.map_cons, same]; rfl⟩

/-! ## Finishing -/

/-- The catalog of entries. -/
def catalogOf (entries : List Entry) : Catalog :=
  .ofCollection (Collection.empty.addAll entries)

theorem catalogOf_nil : catalogOf [] = .empty := by
  rw [catalogOf, Collection.addAll_nil, Catalog.ofCollection, Collection.empty, Catalog.ofEntries,
    List.mergeSort_nil]
  rfl

theorem isEmpty_catalogOf (entries : List Entry) :
    (catalogOf entries).isEmpty = entries.isEmpty := by
  cases entries with
  | nil =>
    rw [catalogOf_nil]
    rfl
  | cons e entries =>
    obtain ⟨kept, mem, -⟩ : (Collection.empty.addAll (e :: entries)).Holds e.placeholder :=
      Collection.holds_addAll (List.mem_cons_self ..)
    have listed : kept ∈ (catalogOf (e :: entries)).entries :=
      (Catalog.ofEntries_perm _).mem_iff.2 mem
    rw [Catalog.isEmpty, List.isEmpty_cons, List.isEmpty_eq_false_iff]
    exact List.ne_nil_of_mem listed

/-- Writes the artifacts of a catalog into all directories. -/
def writeAll (options : ExtractOptions) (catalog : Catalog) : Run Unit :=
  (options.outDir :: options.extraOutDirs).forM (writeArtifacts catalog options.globalName)

theorem run_finish (options : ExtractOptions) (entries : List Entry) (work : Work) :
    (finish options entries).run.run work =
      if entries = [] then (.ok (catalogOf entries), work)
      else (((writeAll options (catalogOf entries)).run.run work).1.map fun _ => catalogOf entries,
        ((writeAll options (catalogOf entries)).run.run work).2) := by
  rw [finish, ← catalogOf]
  simp only [isEmpty_catalogOf]
  by_cases none : entries = []
  · subst none
    rfl
  · rw [if_neg none]
    have some : entries.isEmpty = false := List.isEmpty_eq_false_iff.2 none
    simp only [some, Bool.not_false, if_true]
    show (writeAll options (catalogOf entries) >>=
      fun _ => pure (catalogOf entries)).run.run work = _
    rw [Run.run_bind]
    rcases (writeAll options (catalogOf entries)).run.run work with ⟨e | a, after⟩ <;> rfl

/-! ## The whole run -/

/-- What is counted when all files are done. -/
def countsOf (files : List Path) (entries : List (List Entry)) : ExtractStats where
  scanned := files.length
  transformed := (entries.filter (!·.isEmpty)).length
  entries := entries.flatten.length
  messages := (catalogOf entries.flatten).size

theorem on_extractFiles {options : ExtractOptions} {tree : Tree}
    {results : List (Path × Except Failure (List Entry))} {work : Work}
    (ran : ((sourceFiles options tree).mapM fun file => do
        return (file, ← (extractFile options file).attempt) :
          Run (List (Path × Except Failure (List Entry)))).run.run
        ⟨tree, (scan tree options.sourceRoot options.includes options.ignores
          sourceExtensions).warnings⟩ = (.ok results, work)) :
    Run.on tree (extractFiles options) =
      match (joined results).run.run work with
      | (.error failure, next) => (.error failure, next)
      | (.ok entries, next) =>
        if entries.flatten = [] then (.ok (countsOf (sourceFiles options tree) entries), next)
        else (((writeAll options (catalogOf entries.flatten)).run.run next).1.map
          fun _ => countsOf (sourceFiles options tree) entries,
          ((writeAll options (catalogOf entries.flatten)).run.run next).2) := by
  rw [sourceFiles] at ran
  rw [Run.on, extractFiles, Run.run_bind, Run.run_scanned]
  dsimp only
  rw [Run.run_bind, List.nil_append, ran]
  dsimp only
  rw [Run.run_bind, ← joined]
  rcases (joined results).run.run work with ⟨failure | entries, next⟩
  · rfl
  · dsimp only
    rw [Run.run_bind, run_finish]
    by_cases none : entries.flatten = []
    · simp only [if_pos none]
      rfl
    · simp only [if_neg none]
      rcases (writeAll options (catalogOf entries.flatten)).run.run next with ⟨e | a, after⟩ <;> rfl

/-! ## What is there in the end -/

theorem leadsDown_artifactNames : ∀ name ∈ artifactNames, Path.leadsDown name = true := by
  decide +kernel

theorem text_of_mem_artifacts {catalog : Catalog} {globalName name text text' : String}
    (mem : (name, text) ∈ catalog.artifacts globalName)
    (mem' : (name, text') ∈ catalog.artifacts globalName) : text = text' := by
  have distinct : ((catalog.artifacts globalName).map Prod.fst).Nodup := by
    show artifactNames.Nodup
    decide +kernel
  exact (Prod.mk.inj (List.inj_on_of_nodup_map distinct mem mem' rfl)).2

theorem mem_artifactNames {catalog : Catalog} {globalName name text : String}
    (mem : (name, text) ∈ catalog.artifacts globalName) : name ∈ artifactNames := by
  have listed : name ∈ (catalog.artifacts globalName).map Prod.fst :=
    List.mem_map.2 ⟨(name, text), mem, rfl⟩
  exact listed

def allArtifactFiles (options : ExtractOptions) (catalog : Catalog) : List (Path × ByteArray) :=
  (options.outDir :: options.extraOutDirs).reverse.flatMap
    (artifactFiles catalog options.globalName)

theorem writes_writeAll (options : ExtractOptions) (catalog : Catalog) :
    Run.Writes (writeAll options catalog) (allArtifactFiles options catalog) :=
  Run.Writes.forM (writes_writeArtifacts catalog options.globalName) _

theorem mem_allArtifactFiles {options : ExtractOptions} {catalog : Catalog}
    {file : Path × ByteArray} : file ∈ allArtifactFiles options catalog ↔
      ∃ directory ∈ options.outDir :: options.extraOutDirs, ∃ name text,
        (name, text) ∈ catalog.artifacts options.globalName ∧
          file = (directory.child name, text.toUTF8) := by
  simp only [allArtifactFiles, List.mem_flatMap, List.mem_reverse, artifactFiles, List.mem_map,
    Prod.exists]
  constructor
  · rintro ⟨directory, listed, name, text, mem, rfl⟩
    exact ⟨directory, listed, name, text, mem, rfl⟩
  · rintro ⟨directory, listed, name, text, mem, rfl⟩
    exact ⟨directory, listed, name, text, mem, rfl⟩

section

variable {options : ExtractOptions} {tree : Tree} (clear : Clear options tree)
  {results : List (Path × Except Failure (List Entry))} {written : List (Path × ByteArray)}
  {work : Work} (worked : Worked options tree results written work)
  (known : ∀ r ∈ results, r.1 ∈ sourceFiles options tree)

include clear worked known

theorem read_output {file : Path} {entries : List Entry} (gave : (file, .ok entries) ∈ results)
    {catalog : Catalog} {part : List (Path × ByteArray)} {after : Tree}
    (some : part ⊆ allArtifactFiles options catalog) (further : Written part work.tree after) :
    ∃ out, prepare options tree file = .ok out ∧ entries = out.entries ∧
      after.read out.path = .ok out.code.toUTF8 := by
  obtain ⟨out, prepared, same, put⟩ := worked.exists_of_mem_results gave
  refine ⟨out, prepared, same, ?_⟩
  refine (worked.reached.trans further).read (List.mem_append_right _ put) fun other mem place => ?_
  rcases List.mem_append.1 mem with mem | mem
  · obtain ⟨directory, listed, name, text, artifact, rfl⟩ := mem_allArtifactFiles.1 (some mem)
    exact absurd place.symm (clear.artifacts file (known _ gave) out prepared directory listed name
      (mem_artifactNames artifact))
  · obtain ⟨source, out', gave', prepared', rfl⟩ := worked.exists_of_mem_written mem
    exact congrArg String.toUTF8 (clear.outputs source (known _ gave') out' prepared' file
      (known _ gave) out prepared place)

theorem read_artifact {catalog : Catalog} {after : Tree}
    (further : Written (allArtifactFiles options catalog) work.tree after) {directory : Path}
    (listed : directory ∈ options.outDir :: options.extraOutDirs) {name text : String}
    (artifact : (name, text) ∈ catalog.artifacts options.globalName) :
    after.read (directory.child name) = .ok text.toUTF8 := by
  have mem : (directory.child name, text.toUTF8) ∈ allArtifactFiles options catalog :=
    mem_allArtifactFiles.2 ⟨directory, listed, name, text, artifact, rfl⟩
  refine (worked.reached.trans further).read (List.mem_append_left _ mem) fun other mem place => ?_
  have down := leadsDown_artifactNames name (mem_artifactNames artifact)
  rcases List.mem_append.1 mem with mem | mem
  · obtain ⟨directory', -, name', text', artifact', rfl⟩ := mem_allArtifactFiles.1 mem
    have down' := leadsDown_artifactNames name' (mem_artifactNames artifact')
    rw [target_child tree directory down, target_child tree directory' down'] at place
    obtain rfl : name' = name := by
      simpa using (List.append_inj' place rfl).2
    rw [text_of_mem_artifacts artifact' artifact]
  · obtain ⟨source, out, gave, prepared, rfl⟩ := worked.exists_of_mem_written mem
    exact absurd place (clear.artifacts source (known _ gave) out prepared directory listed name
      (mem_artifactNames artifact))

end

end BundlePrep.Job
