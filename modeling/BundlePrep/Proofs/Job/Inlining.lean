import BundlePrep.Job.Inlining
import BundlePrep.Proofs.Job.Alone

/-!
# Numbers are put into each built file on its own

When the numbers have been read, the built files of a directory are worked on one after another, each
alone. A file of the directory itself is among them if it has the extension of a built file.
-/

set_option autoImplicit false

namespace BundlePrep.Job

open BundlePrep.FileTree BundlePrep.FileTree.Tree BundlePrep.Message

def inlining (numbers : Numbers) (build : Build) : Change Inlined := fun _ code =>
  let result := inlineNumbers numbers build code.toList
  .ok (result, if 0 < result.replaced then some (String.ofList result.code) else none)

theorem describes_inlining (numbers : Numbers) (build : Build) :
    (inlining numbers build).Describes (inlineFile numbers build) := by
  intro file work
  rw [inlineFile, Change.outcome, Run.run_bind, Run.run_readFile]
  cases read : work.tree.readText file with
  | error e => rfl
  | ok code =>
    simp only [Except.mapError, inlining]
    by_cases some : 0 < (inlineNumbers numbers build code.toList).replaced
    · have wrote := Run.run_writeFile_of_read (read_of_readText read)
        (String.ofList (inlineNumbers numbers build code.toList).code)
      simp only [some, if_true, Run.run_bind, wrote]
      rfl
    · simp only [some, if_false]
      rfl

def filesToInline (options : InlineOptions) (tree : Tree) : List Path :=
  (scan tree options.directory [] [] builtExtensions).files

theorem on_inlineFiles {options : InlineOptions} {tree : Tree} {numbers : Numbers}
    (proper : tree.Proper)
    (loaded : (readNumbers options.indexDirectory).run.run ⟨tree, []⟩ = (.ok numbers, ⟨tree, []⟩)) :
    ∃ stats after, Run.on tree (inlineFiles options) = (.ok stats, after) ∧
      (inlining numbers options.build).Applied (filesToInline options tree) tree after.tree := by
  have distinct : ((filesToInline options tree).map tree.target).Nodup := nodup_target_scan proper
  let start : Work := ⟨tree, (scan tree options.directory [] [] builtExtensions).warnings⟩
  have reached : Rewritten [] tree start.tree := .refl tree
  obtain ⟨after, ran, written⟩ := (describes_inlining numbers options.build).run_mapM
    (fun file mem => settled_of_mem_scan proper mem) distinct reached (by simp)
  rw [List.append_nil] at written
  have on : ∃ stats, Run.on tree (inlineFiles options) = (.ok stats, after) := by
    rw [Run.on, inlineFiles, Run.run_bind, loaded]
    dsimp only
    rw [Run.run_bind, Run.run_scanned]
    dsimp only
    dsimp only [start] at ran
    rw [List.nil_append, Run.run_bind, ran]
    exact ⟨_, rfl⟩
  obtain ⟨stats, on⟩ := on
  exact ⟨stats, after, on, Change.applied_of_rewritten distinct (List.Subset.refl _) written⟩

theorem mem_filesOf {path f : Path} {name : String} {item : Item} {entries : List (String × Item)}
    (entry : (name, item) ∈ entries) (h : f ∈ item.files (path.child name)) :
    f ∈ Item.filesOf path entries := by
  induction entries with
  | nil => cases entry
  | cons other entries ih =>
    obtain ⟨n, i⟩ := other
    rw [Item.filesOf]
    rcases List.mem_cons.1 entry with same | mem
    · cases same
      exact List.mem_append_left _ h
    · exact List.mem_append_right _ (ih mem)

theorem exists_mem_scan_child {tree : Tree} {base : Path} {name : String} {content : ByteArray}
    {extensions : List String} (directory : tree.isDirectory base = true)
    (there : tree.kind? (tree.target base ++ [name]) = some (.file content))
    (extension : hasExtension extensions (base.child name) = true) :
    ∃ file ∈ (scan tree base [] [] extensions).files,
      tree.target file = tree.target (base.child name) := by
  obtain ⟨located, here⟩ := isDirectory_iff.1 directory
  obtain ⟨item, own, -⟩ := Option.map_eq_some_iff.1 here
  have found : tree.find base = .ok item := find_eq_ok.2 ⟨located, own⟩
  rw [kind?_append own, Item.kind?_cons] at there
  obtain ⟨inner, entry, file⟩ := Option.bind_eq_some_iff.1 there
  cases item with
  | file content' => cases entry
  | directory entries =>
    obtain ⟨front, back, rfl, -⟩ := List.lookup_eq_some_iff.1 entry
    have below : base.child name ∈ (Item.directory (front ++ (name, inner) :: back)).files base := by
      rw [Item.files]
      have listed : (name, inner) ∈ front ++ (name, inner) :: back := by simp
      refine mem_filesOf listed ?_
      cases inner with
      | file content' => exact List.mem_singleton_self _
      | directory entries => cases file
    have listed : base.child name ∈ _ := List.mem_filter.2 ⟨below, extension⟩
    obtain ⟨q, mem, components⟩ := exists_mem_orderPaths listed
    exact ⟨q, files_scan found extensions ▸ mem,
      by rw [target_eq_lead, target_eq_lead, components]⟩

end BundlePrep.Job
