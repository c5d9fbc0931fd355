import BundlePrep.Proofs.FileTree.Places
import Mathlib.Data.List.TakeWhile

/-!
# Writing and making directories

What is done to a tree makes a later state of it: some files are put where their paths lead, some
directories are made, and all else stays. A file that was written is read back if no other content
was written at its place.
-/

set_option autoImplicit false

namespace BundlePrep.FileTree.Tree

structure Later (put : List (Location × ByteArray)) (before after : Tree) : Prop where
  working : after.working = before.working
  free : ∀ file ∈ put, before.kind? file.1 ≠ some .directory
  file : ∀ location content, put.lookup location = some content →
    after.kind? location = some (.file content)
  other : ∀ location, put.lookup location = none → after.kind? location = before.kind? location ∨
    before.kind? location = none ∧ after.kind? location = some .directory

namespace Later

theorem refl (tree : Tree) : Later [] tree tree where
  working := rfl
  free := by simp
  file _ _ h := by cases h
  other _ _ := .inl rfl

theorem grows {put : List (Location × ByteArray)} {before after : Tree}
    (h : Later put before after) : Grows before after where
  working := h.working
  directory location found := by
    cases own : put.lookup location with
    | some content =>
      obtain ⟨front, back, rfl, -⟩ := List.lookup_eq_some_iff.1 own
      exact absurd found (h.free (location, content) (by simp))
    | none =>
      rcases h.other location own with same | ⟨missing, made⟩
      · rw [same, found]
      · exact made
  file location content found := by
    cases own : put.lookup location with
    | some content' => exact ⟨content', h.file location content' own⟩
    | none =>
      rcases h.other location own with same | ⟨missing, -⟩
      · exact ⟨content, same.trans found⟩
      · rw [missing] at found; cases found

theorem trans {put put' : List (Location × ByteArray)} {a b c : Tree} (ab : Later put a b)
    (bc : Later put' b c) : Later (put' ++ put) a c where
  working := bc.working.trans ab.working
  free file mem := by
    rcases List.mem_append.1 mem with mem | mem
    · exact mt (ab.grows.directory file.1) (bc.free file mem)
    · exact ab.free file mem
  file location content own := by
    rw [List.lookup_append] at own
    cases last : put'.lookup location with
    | some content' =>
      rw [last] at own
      cases own
      exact bc.file location content last
    | none =>
      rw [last, Option.none_or] at own
      have found := ab.file location content own
      rcases bc.other location last with same | ⟨missing, -⟩
      · rw [same, found]
      · rw [missing] at found; cases found
  other location own := by
    rw [List.lookup_append, Option.or_eq_none_iff] at own
    rcases ab.other location own.2 with same | ⟨missing, made⟩ <;>
      rcases bc.other location own.1 with same' | ⟨missing', made'⟩
    · exact .inl (same'.trans same)
    · exact .inr ⟨same ▸ missing', made'⟩
    · exact .inr ⟨missing, same'.trans made⟩
    · exact .inr ⟨missing, made'⟩

theorem of_file {put : List (Location × ByteArray)} {before after : Tree}
    (h : Later put before after) {location : Location} {content : ByteArray}
    (found : after.kind? location = some (.file content)) :
    put.lookup location = some content ∨
      put.lookup location = none ∧ before.kind? location = some (.file content) := by
  cases own : put.lookup location with
  | some content' =>
    rw [h.file location content' own] at found
    cases found
    exact .inl rfl
  | none =>
    rcases h.other location own with same | ⟨-, made⟩
    · exact .inr ⟨rfl, same ▸ found⟩
    · rw [made] at found; cases found

theorem file_of_lookup_eq_none {put : List (Location × ByteArray)} {before after : Tree}
    (h : Later put before after) {location : Location} (own : put.lookup location = none)
    {content : ByteArray} (found : before.kind? location = some (.file content)) :
    after.kind? location = some (.file content) := by
  rcases h.other location own with same | ⟨missing, -⟩
  · rw [same, found]
  · rw [missing] at found; cases found

end Later

theorem later_setAt_file {tree : Tree} {above : Location} {name : String} {content : ByteArray}
    (directory : tree.kind? above = some .directory)
    (free : tree.kind? (above ++ [name]) ≠ some .directory) :
    Later [(above ++ [name], content)] tree (tree.setAt (above ++ [name]) (.file content)) where
  working := rfl
  free := by simpa using free
  file location content' own := by
    rw [Item.lookup_cons_eq] at own
    split at own
    next here =>
      obtain rfl := Option.some.inj own
      rw [here, kind?_setAt directory free (Item.leaf_file _), if_pos rfl, Item.kind]
    next => cases own
  other location own := by
    rw [kind?_setAt directory free (Item.leaf_file content), if_neg (by
      simpa [Item.lookup_cons_eq] using own)]
    exact .inl rfl

theorem later_setAt_directory {tree : Tree} {above : Location} {name : String}
    (directory : tree.kind? above = some .directory)
    (missing : tree.kind? (above ++ [name]) = none) :
    Later [] tree (tree.setAt (above ++ [name]) (.directory [])) where
  working := rfl
  free := by simp
  file _ _ h := by cases h
  other location _ := by
    rw [kind?_setAt directory (by simp [missing]) Item.leaf_empty]
    split
    next own => exact .inr ⟨own ▸ missing, rfl⟩
    next => exact .inl rfl

/-! ## Writing -/

theorem segments_of_dropWhile {p : Path} {last : String} {directory : List String}
    (cut : p.segments.reverse.dropWhile (fun s => decide (s = "")) = last :: directory) :
    last ≠ "" ∧ ∃ slashes, p.segments = directory.reverse ++ last :: slashes ∧
      ∀ s ∈ slashes, s = "" := by
  have whole := List.takeWhile_append_dropWhile (p := fun s => decide (s = ""))
    (l := p.segments.reverse)
  have full : last ≠ "" := by
    simpa [cut] using List.head?_dropWhile_not (fun s => decide (s = "")) p.segments.reverse
  rw [cut] at whole
  refine ⟨full, (p.segments.reverse.takeWhile fun s => decide (s = "")).reverse, ?_,
    fun s mem => ?_⟩
  · rw [← List.reverse_inj, List.reverse_append, List.reverse_cons, List.reverse_reverse,
      List.reverse_reverse, List.append_assoc, List.singleton_append, whole]
  · have empty := List.mem_takeWhile_imp (List.mem_reverse.1 mem)
    simpa using empty

theorem lastStep?_eq_some {tree : Tree} {p : Path} {above : Location} {last : String}
    (h : tree.lastStep? p = .ok (some (above, last))) :
    checkPath p = .ok () ∧ last ≠ "" ∧ last.utf8ByteSize ≤ nameLimit ∧
      tree.kind? above = some .directory ∧ ∃ way slashes, p.segments = way ++ last :: slashes ∧
        (∀ s ∈ slashes, s = "") ∧ tree.follow (tree.startOf p) way = .ok above := by
  rw [lastStep?] at h
  cases checked : checkPath p with
  | error e => simp [checked, bind, Except.bind] at h
  | ok _ =>
    simp only [checked, bind, Except.bind] at h
    split at h
    · cases h
    next last' directory cut =>
      cases followed : tree.follow (tree.startOf p) directory.reverse with
      | error e => simp [followed] at h
      | ok above' =>
        simp only [followed] at h
        split_ifs at h with none long
        obtain ⟨rfl, rfl⟩ := Prod.mk.inj (Option.some.inj (Except.ok.inj h))
        obtain ⟨full, slashes, segments, empty⟩ := segments_of_dropWhile cut
        exact ⟨rfl, full, Nat.not_lt.1 long, isDirectoryAt_iff.1 (by simpa using none),
          directory.reverse, slashes, segments, empty, followed⟩

theorem write_eq_ok {tree after : Tree} {p : Path} {content : ByteArray}
    (h : tree.write p content = .ok after) :
    ∃ way above last, checkPath p = .ok () ∧ p.segments = way ++ [last] ∧
      Path.passed last = false ∧ last ≠ ".." ∧ last.utf8ByteSize ≤ nameLimit ∧
      tree.follow (tree.startOf p) way = .ok above ∧ tree.kind? above = some .directory ∧
      tree.kind? (above ++ [last]) ≠ some .directory ∧
      after = tree.setAt (above ++ [last]) (.file content) := by
  rw [write] at h
  cases step : tree.lastStep? p with
  | error e => simp [step, bind, Except.bind] at h
  | ok step? =>
    cases step? with
    | none => simp [step, bind, Except.bind] at h
    | some step' =>
      obtain ⟨above, last⟩ := step'
      simp only [step, bind, Except.bind] at h
      split_ifs at h with odd taken
      obtain ⟨checked, full, short, directory, way, slashes, segments, empty, followed⟩ :=
        lastStep?_eq_some step
      simp only [Bool.or_eq_true, decide_eq_true_eq, not_or] at odd
      have ends : slashes = [] := by
        rcases List.eq_nil_or_concat slashes with none | ⟨front, s, rfl⟩
        · exact none
        · refine absurd ?_ odd.2
          rw [segments, empty s (by simp), List.concat_eq_append, ← List.cons_append,
            ← List.append_assoc, List.getLast?_concat]
      subst ends
      exact ⟨way, above, last, checked, segments, by simp [Path.passed, full, odd.1.1], odd.1.2,
        short, followed, directory, mt isDirectoryAt_iff.2 taken, (Except.ok.inj h).symm⟩

theorem later_write {tree after : Tree} {p : Path} {content : ByteArray}
    (h : tree.write p content = .ok after) : Later [(tree.target p, content)] tree after := by
  obtain ⟨way, above, last, -, segments, passed, parent, -, followed, directory, free, rfl⟩ :=
    write_eq_ok h
  have place : tree.target p = above ++ [last] := by
    rw [target, segments, walk_append, ← follow_eq_walk followed, walk, passed, if_neg (by simp),
      if_neg parent]
    rfl
  rw [place]
  exact later_setAt_file directory free

theorem locate_write {tree after : Tree} {p : Path} {content : ByteArray}
    (h : tree.write p content = .ok after) : after.locate p = .ok (tree.target p) := by
  have grows := (later_write h).grows
  obtain ⟨way, above, last, checked, segments, passed, parent, short, followed, directory, free,
    rfl⟩ := write_eq_ok h
  refine locate_eq_ok.2 ⟨checked, ?_⟩
  rw [grows.startOf, segments, follow_append, grows.follow followed]
  refine follow_cons_eq_ok.2 ⟨grows.directory _ directory, ?_, fun _ _ => ⟨short, ?_⟩⟩
  · rw [target, segments, walk_append, ← follow_eq_walk followed]
    rfl
  · rw [kind?_setAt directory free (Item.leaf_file content), if_pos rfl]
    rfl

/-! ## Making directories -/

theorem later_makeDirectory {tree after : Tree} {p : Path} (h : tree.makeDirectory p = .ok after) :
    Later [] tree after := by
  rw [makeDirectory] at h
  cases step : tree.lastStep? p with
  | error e => simp [step, bind, Except.bind] at h
  | ok step? =>
    cases step? with
    | none => simp [step, bind, Except.bind] at h
    | some step' =>
      obtain ⟨above, last⟩ := step'
      simp only [step, bind, Except.bind] at h
      split_ifs at h with taken
      obtain ⟨-, -, -, directory, -⟩ := lastStep?_eq_some step
      simp only [Bool.or_eq_true, not_or, Bool.not_eq_true, isSome_at?] at taken
      rw [← Except.ok.inj h]
      exact later_setAt_directory directory (by simpa using taken.2)

theorem later_descend (tree : Tree) (paths : List Path) :
    Later [] tree (makeDirectories.descend tree paths).2 := by
  fun_induction makeDirectories.descend tree paths with
  | case1 tree => exact .refl tree
  | case2 tree p ps after made ih => exact (later_makeDirectory made).trans ih
  | case3 tree p ps e made there ih => exact ih
  | case4 tree p ps e made there => exact .refl tree

theorem later_makeDirectories (tree : Tree) (p : Path) :
    Later [] tree (tree.makeDirectories p).2 := by
  rw [makeDirectories]
  generalize ancestors p = paths
  generalize ([] : List Path) = waiting
  fun_induction makeDirectories.climb tree waiting paths with
  | case1 waiting => exact later_descend tree waiting
  | case2 waiting p ps after made => exact (later_makeDirectory made).trans (later_descend _ _)
  | case3 waiting p ps made ih => exact ih
  | case4 waiting p ps e made there => exact later_descend tree waiting
  | case5 waiting p ps e made there => exact .refl tree

/-! ## One thing after another -/

inductive Written : List (Path × ByteArray) → Tree → Tree → Prop
  | none {before after : Tree} (later : Later [] before after) : Written [] before after
  | write {files : List (Path × ByteArray)} {before mid next after : Tree} {p : Path}
    {content : ByteArray} (files_written : Written files before mid)
    (written : mid.write p content = .ok next) (later : Later [] next after) :
    Written ((p, content) :: files) before after

namespace Written

def places (tree : Tree) (files : List (Path × ByteArray)) : List (Location × ByteArray) :=
  files.map fun file => (tree.target file.1, file.2)

theorem later {files : List (Path × ByteArray)} {before after : Tree}
    (h : Written files before after) : Later (places before files) before after := by
  induction h with
  | none later => exact later
  | write _ written later ih =>
    have put := later_write written
    rw [ih.grows.target] at put
    exact (ih.trans put).trans later

theorem trans {files files' : List (Path × ByteArray)} {a b c : Tree} (ab : Written files a b)
    (bc : Written files' b c) : Written (files' ++ files) a c := by
  induction bc with
  | none later =>
    cases ab with
    | none first => exact .none (first.trans later)
    | write before written next => exact .write before written (next.trans later)
  | write _ written later ih => exact .write (ih ab) written later

theorem read_last {files : List (Path × ByteArray)} {before after : Tree} {p : Path}
    {content : ByteArray} (h : Written ((p, content) :: files) before after) :
    after.read p = .ok content := by
  cases h with
  | write _ put later =>
    rw [read_eq_ok, later.grows.target, (later_write put).grows.target]
    exact ⟨later.grows.locate (locate_write put),
      later.file_of_lookup_eq_none rfl ((later_write put).file _ _ List.lookup_cons_self)⟩

theorem read {files : List (Path × ByteArray)} {before after : Tree} {p : Path}
    {content : ByteArray} (h : Written files before after) (mem : (p, content) ∈ files)
    (same : ∀ file ∈ files, before.target file.1 = before.target p → file.2 = content) :
    after.read p = .ok content := by
  induction h with
  | none => cases mem
  | @write files before mid next after q last written put later ih =>
    have grows := (later_write put).grows
    obtain ⟨located, found⟩ : next.locate p = .ok (next.target p) ∧
        next.kind? (next.target p) = some (.file content) := by
      rw [grows.target]
      rcases List.mem_cons.1 mem with own | mem
      · cases own
        exact ⟨locate_write put, (later_write put).file _ _ List.lookup_cons_self⟩
      · obtain ⟨located, found⟩ := read_eq_ok.1
          (ih mem fun file mem => same file (List.mem_cons_of_mem _ mem))
        refine ⟨grows.locate located, ?_⟩
        by_cases here : mid.target p = mid.target q
        · rw [written.later.grows.target, written.later.grows.target] at here
          obtain rfl : last = content := same _ (List.mem_cons_self ..) here.symm
          exact (later_write put).file _ _ (by
            rw [written.later.grows.target, written.later.grows.target, here,
              List.lookup_cons_self])
        · exact (later_write put).file_of_lookup_eq_none
            (by rw [Item.lookup_cons_eq, if_neg here, List.lookup_nil]) found
    rw [read_eq_ok, later.grows.target]
    exact ⟨later.grows.locate located, later.file_of_lookup_eq_none rfl found⟩

end Written

end BundlePrep.FileTree.Tree
