import BundlePrep.Proofs.FileTree.Relative
import BundlePrep.Proofs.Job.Outcome

/-!
# Outputs that are out of the way

An output lies below the output directory where its source lies below the root of the sources. So no
output is in the way of anything if the output directory holds no source, no source is found above
the root, and none is named like an artifact.
-/

set_option autoImplicit false

namespace BundlePrep.Job

open BundlePrep.FileTree BundlePrep.FileTree.Tree BundlePrep.Message

/-- A directory for outputs that holds no source, and sources that lie below their root and are not
named like artifacts. -/
structure Separate (options : ExtractOptions) (tree : Tree) : Prop where
  rooted : options.sourceRoot.components ≠ []
  inward : ∀ file ∈ sourceFiles options tree, ∀ inner, file.below? options.sourceRoot = some inner →
    .parent ∉ inner.components
  outside : ∀ file ∈ sourceFiles options tree,
    ¬ tree.target options.outDir <+: tree.target file
  named : ∀ file ∈ sourceFiles options tree, ∀ name ∈ artifactNames, file.fileName? ≠ some name

theorem target_join_plain (tree : Tree) {base inner : Path} (plain : inner.Plain)
    (inward : .parent ∉ inner.components) :
    tree.target (base.join inner) = tree.target base ++ Path.names inner.segments := by
  rw [target_join tree plain.relative plain.ne_nil, walk_eq_append, Path.names]
  intro parent
  rw [plain.components] at inward
  exact inward (List.mem_map.2 ⟨"..", List.mem_filter.2 ⟨parent, by decide⟩, rfl⟩)

theorem components_ne_nil_of_moduleId? {file root inner : Path} {moduleId : String}
    (below : file.below? root = some inner) (known : file.moduleId? root = some moduleId) :
    inner.components ≠ [] := by
  intro none
  rw [Path.moduleId?, below] at known
  simp [none, Path.fileName?] at known

theorem Separate.clear {options : ExtractOptions} {tree : Tree} (h : Separate options tree) :
    Clear options tree := by
  have place {file : Path} {out : Output} (mem : file ∈ sourceFiles options tree)
      (prepared : prepare options tree file = .ok out) : ∃ names, names ≠ [] ∧
        file.components = options.sourceRoot.components ++ names.map Path.componentOf ∧
        tree.target out.path = tree.target options.outDir ++ names := by
    obtain ⟨code, moduleId, inner, -, known, -, below, path⟩ := prepare_eq_ok prepared
    have some := components_ne_nil_of_moduleId? below known
    obtain ⟨plain, components⟩ := Path.plain_below h.rooted below
    rw [plain.components] at some components
    refine ⟨Path.names inner.segments, by simpa using some, components, ?_⟩
    rw [path, target_join_plain tree plain (h.inward file mem inner below)]
  constructor
  · intro file mem out prepared other mem' same
    obtain ⟨names, -, -, target⟩ := place mem prepared
    exact h.outside other mem' ⟨names, by rw [← target, same]⟩
  · intro file mem out prepared other mem' out' prepared' same
    obtain ⟨names, -, components, target⟩ := place mem prepared
    obtain ⟨names', -, components', target'⟩ := place mem' prepared'
    rw [target, target', List.append_cancel_left_eq] at same
    obtain rfl := eq_of_components mem mem' (by rw [components, components', same])
    rw [prepared] at prepared'
    rw [Except.ok.inj prepared']
  · intro file mem out prepared directory listed name artifact same
    obtain ⟨names, some, components, target⟩ := place mem prepared
    have down := leadsDown_artifactNames name artifact
    rw [target, target_child tree directory down] at same
    obtain ⟨front, last, rfl⟩ := (List.eq_nil_or_concat names).resolve_left some
    rw [List.concat_eq_append, ← List.append_assoc] at same
    obtain rfl : last = name := by simpa using (List.append_inj' same rfl).2
    refine h.named file mem last artifact ?_
    rw [Path.fileName?, components, List.concat_eq_append, List.map_append, ← List.append_assoc,
      List.map_singleton, List.getLast?_concat, Path.componentOf,
      if_neg (Path.leadsDown_iff.1 down).2]

end BundlePrep.Job
