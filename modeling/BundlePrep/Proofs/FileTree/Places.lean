import BundlePrep.Proofs.FileTree.Kinds

/-!
# Where paths lead

There are no links, so a path that can be followed leads where its segments say, and as long as
nothing is taken away it stays so.
-/

set_option autoImplicit false

namespace BundlePrep.FileTree

/-- Where segments lead from a location, if all that they name is there. -/
def walk (location : Location) : List String → Location
  | [] => location
  | s :: ss =>
    if Path.passed s then walk location ss
    else if s = ".." then walk location.dropLast ss
    else walk (location ++ [s]) ss

theorem walk_append (location : Location) (ss ts : List String) :
    walk location (ss ++ ts) = walk (walk location ss) ts := by
  induction ss generalizing location with
  | nil => rfl
  | cons s ss ih =>
    rw [List.cons_append, walk, walk]
    split_ifs <;> exact ih _

namespace Tree

/-- The location that a path names. -/
def target (tree : Tree) (p : Path) : Location := walk (tree.startOf p) p.segments

structure Grows (before after : Tree) : Prop where
  working : after.working = before.working
  directory : ∀ location, before.kind? location = some .directory →
    after.kind? location = some .directory
  file : ∀ location content, before.kind? location = some (.file content) →
    ∃ content', after.kind? location = some (.file content')

namespace Grows

theorem refl (tree : Tree) : Grows tree tree := ⟨rfl, fun _ h => h, fun _ c h => ⟨c, h⟩⟩

theorem isSome {before after : Tree} (h : Grows before after) {location : Location}
    (found : (before.kind? location).isSome) : (after.kind? location).isSome := by
  obtain ⟨kind, found⟩ := Option.isSome_iff_exists.1 found
  cases kind with
  | file content =>
    obtain ⟨content', found'⟩ := h.file location content found
    rw [found']
    rfl
  | directory =>
    rw [h.directory location found]
    rfl

theorem startOf {before after : Tree} (h : Grows before after) (p : Path) :
    after.startOf p = before.startOf p := by
  rw [Tree.startOf, Tree.startOf, h.working]

theorem target {before after : Tree} (h : Grows before after) (p : Path) :
    after.target p = before.target p := by
  rw [Tree.target, Tree.target, h.startOf]

end Grows

/-! ## Following -/

theorem follow_cons_eq_ok {tree : Tree} {location place : Location} {s : String}
    {ss : List String} :
    tree.follow location (s :: ss) = .ok place ↔
      tree.kind? location = some .directory ∧
        tree.follow (walk location [s]) ss = .ok place ∧
        (Path.passed s = false → s ≠ ".." →
          s.utf8ByteSize ≤ nameLimit ∧ (tree.kind? (location ++ [s])).isSome) := by
  rw [follow, walk, walk, walk, walk, isSome_at?]
  by_cases directory : tree.isDirectoryAt location = true
  · rw [if_neg (by simp [directory]), isDirectoryAt_iff.1 directory]
    split_ifs with passed parent long found
    · simp [passed]
    · simp [parent]
    · simp [passed, parent, Nat.not_le.2 long]
    · simp [passed, parent, Nat.not_lt.1 long, found]
    · simp [passed, parent, found]
  · rw [if_pos (by simp [directory])]
    simp [mt isDirectoryAt_iff.2 directory]

theorem follow_eq_walk {tree : Tree} {location place : Location} {ss : List String}
    (h : tree.follow location ss = .ok place) : place = walk location ss := by
  induction ss generalizing location with
  | nil => exact (Except.ok.inj h).symm
  | cons s ss ih =>
    rw [← List.singleton_append, walk_append]
    exact ih (follow_cons_eq_ok.1 h).2.1

theorem follow_append (tree : Tree) (location : Location) (ss ts : List String) :
    tree.follow location (ss ++ ts) =
      tree.follow location ss >>= fun place => tree.follow place ts := by
  induction ss generalizing location with
  | nil => rfl
  | cons s ss ih =>
    rw [List.cons_append, follow, follow]
    split_ifs <;> first | rfl | exact ih _

theorem Grows.follow {before after : Tree} (grows : Grows before after) {location place : Location}
    {ss : List String} (h : before.follow location ss = .ok place) :
    after.follow location ss = .ok place := by
  induction ss generalizing location with
  | nil => exact h
  | cons s ss ih =>
    obtain ⟨directory, rest, named⟩ := follow_cons_eq_ok.1 h
    refine follow_cons_eq_ok.2 ⟨grows.directory _ directory, ih rest, fun passed parent => ?_⟩
    obtain ⟨short, found⟩ := named passed parent
    exact ⟨short, grows.isSome found⟩

/-! ## Reading -/

theorem locate_eq_ok {tree : Tree} {p : Path} {place : Location} :
    tree.locate p = .ok place ↔
      checkPath p = .ok () ∧ tree.follow (tree.startOf p) p.segments = .ok place := by
  rw [locate]
  cases checkPath p with
  | error e => simp [bind, Except.bind]
  | ok _ => simp [bind, Except.bind]

theorem locate_eq_target {tree : Tree} {p : Path} {place : Location}
    (h : tree.locate p = .ok place) : place = tree.target p :=
  follow_eq_walk (locate_eq_ok.1 h).2

theorem Grows.locate {before after : Tree} (grows : Grows before after) {p : Path}
    {place : Location} (h : before.locate p = .ok place) : after.locate p = .ok place := by
  obtain ⟨checked, followed⟩ := locate_eq_ok.1 h
  exact locate_eq_ok.2 ⟨checked, by rw [grows.startOf]; exact grows.follow followed⟩

theorem read_eq_ok {tree : Tree} {p : Path} {content : ByteArray} :
    tree.read p = .ok content ↔
      tree.locate p = .ok (tree.target p) ∧ tree.kind? (tree.target p) = some (.file content) := by
  rw [read, find]
  cases located : tree.locate p with
  | error e => simp [bind, Except.bind]
  | ok place =>
    obtain rfl := locate_eq_target located
    rw [kind?, Item.kind?, ← at?]
    cases found : tree.at? (tree.target p) with
    | none => simp [found, bind, Except.bind]
    | some item => cases item <;> simp [found, bind, Except.bind, Item.kind, pure, Except.pure]

theorem read_of_file {tree : Tree} {p : Path} {content : ByteArray}
    (file : tree.kind? (tree.target p) = some (.file content)) :
    tree.read p = (tree.locate p).map fun _ => content := by
  cases located : tree.locate p with
  | error e => simp [read, find, located, bind, Except.bind, Except.map]
  | ok place =>
    obtain rfl := locate_eq_target located
    exact read_eq_ok.2 ⟨located, file⟩

theorem Grows.read {before after : Tree} (grows : Grows before after) {p : Path}
    {old content : ByteArray} (h : before.read p = .ok old)
    (file : after.kind? (before.target p) = some (.file content)) : after.read p = .ok content := by
  rw [read_eq_ok, grows.target]
  exact ⟨grows.locate (read_eq_ok.1 h).1, file⟩

theorem readText_of_read {tree : Tree} {p : Path} {text : String}
    (h : tree.read p = .ok text.toUTF8) : tree.readText p = .ok text := by
  have decoded : String.fromUTF8? text.toUTF8 = some text := dif_pos text.isValidUTF8
  rw [readText, h]
  simp only [bind, Except.bind, decoded]
  rfl

theorem read_of_readText {tree : Tree} {p : Path} {text : String}
    (h : tree.readText p = .ok text) : tree.read p = .ok text.toUTF8 := by
  rw [readText] at h
  cases found : tree.read p with
  | error e => rw [found] at h; cases h
  | ok content =>
    rw [found] at h
    simp only [bind, Except.bind] at h
    split at h
    next decoded =>
      obtain rfl := Except.ok.inj h
      rw [String.fromUTF8?] at decoded
      split at decoded
      · obtain rfl := Option.some.inj decoded
        rfl
      · cases decoded
    next => cases h

end Tree

end BundlePrep.FileTree
