import BundlePrep.Job.Scan
import BundlePrep.Proofs.FileTree.Proper
import BundlePrep.Proofs.Message.Numbering
import Mathlib.Data.List.Nodup

/-!
# What a scan finds

The files of a scan lie below places that are there, and stand in strictly ascending order: no two of
them have the same components. In a proper tree all of them are settled.
-/

set_option autoImplicit false

namespace BundlePrep.FileTree.Path

/-! ## The order of paths -/

def nameOf : Component → String
  | .normal name => name
  | _ => ""

theorem compareComponents_eq :
    compareComponents = compareLex (compareOn compareComponents.rank) (compareOn nameOf) := by
  funext a b
  cases a <;> cases b <;> rfl

instance : Std.TransCmp compareComponents := by
  rw [compareComponents_eq]
  infer_instance

theorem compareLists_eq : compareLists = List.compareLex compareComponents := by
  funext as bs
  induction as generalizing bs with
  | nil => cases bs <;> rfl
  | cons a as ih =>
    cases bs with
    | nil => rfl
    | cons b bs =>
      rw [compareLists, List.compareLex_cons_cons, ih]

instance : Std.TransCmp compareLists := by
  rw [compareLists_eq]
  infer_instance

instance : Std.TransCmp compare where
  eq_swap {p q} := by
    show compareLists p.components q.components = _
    exact Std.OrientedCmp.eq_swap
  isLE_trans {p q r} first second := by
    show (compareLists p.components r.components).isLE = true
    exact Std.TransCmp.isLE_trans first second

instance : Std.LawfulEqCmp compareComponents where
  eq_of_compare {a b} h := by
    rw [compareComponents_eq, compareLex, Ordering.then_eq_eq] at h
    obtain ⟨rank, name⟩ := h
    have rank : compareComponents.rank a = compareComponents.rank b := by
      simpa [compareOn] using rank
    have name : nameOf a = nameOf b := by simpa [compareOn] using name
    cases a <;> cases b <;> simp_all [compareComponents.rank, nameOf]

instance : Std.LawfulEqCmp compareLists := by
  rw [compareLists_eq]
  infer_instance

theorem compare_eq_iff {p q : Path} : p.compare q = .eq ↔ p.components = q.components := by
  show compareLists p.components q.components = .eq ↔ _
  exact Std.LawfulEqCmp.compare_eq_iff_eq

theorem compare_of_components {p q : Path} (same : p.components = q.components) :
    p.compare q = .eq :=
  compare_eq_iff.2 same

end BundlePrep.FileTree.Path

namespace BundlePrep.Job

open BundlePrep.FileTree BundlePrep.Message

theorem mem_of_mem_orderPaths {paths : List Path} {p : Path} (h : p ∈ orderPaths paths) :
    p ∈ paths :=
  List.mem_mergeSort.1 (mem_of_mem_eraseRepsBy h)

theorem exists_mem_orderPaths {paths : List Path} {p : Path} (h : p ∈ paths) :
    ∃ q ∈ orderPaths paths, q.components = p.components := by
  have keys : (fun a b : Path => a.compare b == .eq) = fun a b => a.components == b.components := by
    funext a b
    rw [Bool.eq_iff_iff, beq_iff_eq, beq_iff_eq, Path.compare_eq_iff]
  rw [orderPaths, keys]
  exact exists_mem_eraseRepsBy Path.components (List.mem_mergeSort.2 h)

theorem pairwise_orderPaths (paths : List Path) :
    (orderPaths paths).Pairwise fun p q => p.compare q = .lt := by
  have sorted : (paths.mergeSort fun p q => (p.compare q).isLE).Pairwise
      fun p q => (p.compare q).isLE = true := by
    refine List.pairwise_mergeSort (fun _ _ _ => Std.TransCmp.isLE_trans) (fun p q => ?_) paths
    have swapped : q.compare p = (p.compare q).swap := Std.OrientedCmp.eq_swap
    rw [swapped]
    cases p.compare q <;> rfl
  refine pairwise_eraseRepsBy (fun p q le other => ?_) (fun p q r => ?_) sorted
  · cases order : p.compare q with
    | lt => rfl
    | eq => rw [order] at other; cases other
    | gt => rw [order] at le; cases le
  · exact Std.TransCmp.lt_of_lt_of_isLE

theorem orderPaths_eq_self {paths : List Path} (h : paths.Pairwise fun p q => p.compare q = .lt) :
    orderPaths paths = paths := by
  have sorted : (paths.mergeSort fun p q => (p.compare q).isLE) = paths :=
    List.mergeSort_of_pairwise (h.imp fun before => by rw [before]; rfl)
  rw [orderPaths, sorted]
  exact eraseRepsBy_eq_self (h.imp fun before => by rw [before]; rfl)

theorem eq_of_components {paths : List Path} {p q : Path} (memP : p ∈ orderPaths paths)
    (memQ : q ∈ orderPaths paths) (same : p.components = q.components) : p = q := by
  have distinct : ((orderPaths paths).map Path.components).Nodup :=
    List.pairwise_map.2 ((pairwise_orderPaths paths).imp fun before same => by
      rw [Path.compare_of_components same] at before
      cases before)
  exact List.inj_on_of_nodup_map distinct memP memQ same

theorem exists_of_mem_scan {tree : Tree} {base : Path} {includes ignores extensions : List String}
    {file : Path} (h : file ∈ (scan tree base includes ignores extensions).files) :
    ∃ root ∈ (roots tree base includes).1, ∃ item, tree.find root = .ok item ∧
      file ∈ item.files root := by
  have found := (List.mem_filter.1 (mem_of_mem_orderPaths h)).1
  obtain ⟨walk, listed, mem⟩ := List.mem_flatMap.1 found
  obtain ⟨root, start, rfl⟩ := List.mem_map.1 listed
  rw [filesBelow] at mem
  cases there : tree.find root with
  | error e => rw [there] at mem; cases mem
  | ok item => rw [there] at mem; exact ⟨root, start, item, there, mem⟩

theorem extension_of_mem_scan {tree : Tree} {base : Path}
    {includes ignores extensions : List String} {file : Path}
    (h : file ∈ (scan tree base includes ignores extensions).files) :
    hasExtension extensions file = true := by
  have kept := (List.mem_filter.1 (mem_of_mem_orderPaths h)).2
  exact (Bool.and_eq_true _ _ ▸ kept).2

theorem files_scan {tree : Tree} {base : Path} {item : Item} (found : tree.find base = .ok item)
    (extensions : List String) : (scan tree base [] [] extensions).files =
      orderPaths ((item.files base).filter (hasExtension extensions)) := by
  simp [scan, Ignores.ofTexts, Ignores.contains, roots, filesBelow, found, Except.toOption]

theorem settled_of_mem_scan {tree : Tree} (proper : tree.Proper) {base : Path}
    {includes ignores extensions : List String} {file : Path}
    (h : file ∈ (scan tree base includes ignores extensions).files) : tree.Settled file := by
  obtain ⟨root, -, item, found, mem⟩ := exists_of_mem_scan h
  exact Tree.settled_of_mem_files proper found mem

theorem nodup_target_scan {tree : Tree} (proper : tree.Proper) {base : Path}
    {ignores extensions : List String} :
    ((scan tree base [] ignores extensions).files.map tree.target).Nodup := by
  refine List.Nodup.map_on (fun p memP q memQ same => ?_) ?_
  · obtain ⟨root, start, item, found, below⟩ := exists_of_mem_scan memP
    obtain ⟨root', start', item', found', below'⟩ := exists_of_mem_scan memQ
    obtain rfl : root = base := List.mem_singleton.1 start
    obtain rfl : root' = root := List.mem_singleton.1 start'
    obtain rfl : item = item' := Except.ok.inj (found.symm.trans found')
    have inside := Item.isProper_at? proper (Tree.find_eq_ok.1 found).2
    obtain ⟨names, content, rfl, down, -⟩ := Item.exists_of_mem_files item inside below
    obtain ⟨names', content', rfl, down', -⟩ := Item.exists_of_mem_files item inside below'
    rw [Tree.target_descend tree _ down, Tree.target_descend tree _ down',
      List.append_cancel_left_eq] at same
    rw [same]
  · refine (pairwise_orderPaths _).imp fun before same => ?_
    rw [same, Path.compare_of_components rfl] at before
    cases before

end BundlePrep.Job
