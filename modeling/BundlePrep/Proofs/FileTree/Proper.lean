import BundlePrep.Proofs.FileTree.Joined

/-!
# Proper trees

In a proper tree the names in a directory differ, and each of them leads down. The files of a proper
item are found where their paths are spelled, as long as nothing is taken away: if their paths are
too long to be followed, they stay too long.
-/

set_option autoImplicit false

namespace BundlePrep.FileTree

namespace Item

mutual
/-- Whether in all directories the names differ and lead down. -/
def isProper : Item → Bool
  | .file _ => true
  | .directory entries => areProper entries

def areProper : List (String × Item) → Bool
  | [] => true
  | (name, item) :: entries =>
    Path.leadsDown name && entries.all (·.1 != name) && isProper item && areProper entries
end

theorem areProper_cons {name : String} {item : Item} {entries : List (String × Item)} :
    areProper ((name, item) :: entries) = true ↔
      Path.leadsDown name = true ∧ (∀ entry ∈ entries, entry.1 ≠ name) ∧
        item.isProper = true ∧ areProper entries = true := by
  rw [areProper]
  simp only [Bool.and_eq_true, List.all_eq_true, bne_iff_ne, and_assoc]

theorem lookup_of_mem {name : String} {item : Item} {entries : List (String × Item)}
    (proper : areProper entries = true) (h : (name, item) ∈ entries) :
    entries.lookup name = some item := by
  induction entries with
  | nil => cases h
  | cons entry entries ih =>
    obtain ⟨n, i⟩ := entry
    obtain ⟨-, apart, -, rest⟩ := areProper_cons.1 proper
    rw [lookup_cons_eq]
    rcases List.mem_cons.1 h with same | mem
    · cases same
      exact if_pos rfl
    · rw [if_neg (apart _ mem), ih rest mem]

theorem isProper_of_mem {name : String} {item : Item} {entries : List (String × Item)}
    (proper : areProper entries = true) (h : (name, item) ∈ entries) :
    Path.leadsDown name = true ∧ item.isProper = true := by
  induction entries with
  | nil => cases h
  | cons entry entries ih =>
    obtain ⟨n, i⟩ := entry
    obtain ⟨down, -, inner, rest⟩ := areProper_cons.1 proper
    rcases List.mem_cons.1 h with same | mem
    · cases same
      exact ⟨down, inner⟩
    · exact ih rest mem

theorem isProper_at? {item below : Item} {location : Location} (proper : item.isProper = true)
    (h : item.at? location = some below) : below.isProper = true := by
  induction location generalizing item with
  | nil =>
    cases h
    exact proper
  | cons name location ih =>
    rw [at?, List.foldlM_cons] at h
    obtain ⟨inner, found, rest⟩ := Option.bind_eq_some_iff.1 h
    refine ih ?_ rest
    cases item with
    | file content => cases found
    | directory entries =>
      obtain ⟨front, back, rfl, -⟩ := List.lookup_eq_some_iff.1 found
      exact (isProper_of_mem proper (by simp : (name, inner) ∈ _)).2

mutual
theorem exists_of_mem_files {f path : Path} : (item : Item) → item.isProper = true →
    f ∈ item.files path → ∃ names content, f = path.descend names ∧
      (∀ name ∈ names, Path.leadsDown name = true) ∧ item.kind? names = some (.file content)
  | .file content, _, h => ⟨[], content, List.mem_singleton.1 h, by simp, rfl⟩
  | .directory entries, proper, h => by
    obtain ⟨name, item, names, content, mem, rfl, down, found⟩ :=
      exists_of_mem_filesOf entries proper h
    obtain ⟨leads, -⟩ := isProper_of_mem proper mem
    refine ⟨name :: names, content, rfl, List.forall_mem_cons.2 ⟨leads, down⟩, ?_⟩
    rw [kind?_cons, entry?, lookup_of_mem proper mem]
    exact found

theorem exists_of_mem_filesOf {f path : Path} : (entries : List (String × Item)) →
    areProper entries = true → f ∈ filesOf path entries → ∃ name item names content,
      (name, item) ∈ entries ∧ f = (path.child name).descend names ∧
        (∀ name ∈ names, Path.leadsDown name = true) ∧ item.kind? names = some (.file content)
  | [], _, h => by cases h
  | (name, item) :: entries, proper, h => by
    obtain ⟨-, -, inner, rest⟩ := areProper_cons.1 proper
    rw [filesOf] at h
    rcases List.mem_append.1 h with mem | mem
    · obtain ⟨names, content, same, down, found⟩ := exists_of_mem_files item inner mem
      exact ⟨name, item, names, content, List.mem_cons_self .., same, down, found⟩
    · obtain ⟨name', item', names, content, mem, same, down, found⟩ :=
        exists_of_mem_filesOf entries rest mem
      exact ⟨name', item', names, content, List.mem_cons_of_mem _ mem, same, down, found⟩
end

theorem mem_filesOf {f path : Path} {name : String} {item : Item} {entries : List (String × Item)}
    (mem : (name, item) ∈ entries) (h : f ∈ item.files (path.child name)) :
    f ∈ filesOf path entries := by
  induction entries with
  | nil => cases mem
  | cons entry entries ih =>
    obtain ⟨n, i⟩ := entry
    rw [filesOf]
    rcases List.mem_cons.1 mem with same | mem
    · cases same
      exact List.mem_append_left _ h
    · exact List.mem_append_right _ (ih mem)

theorem descend_mem_files {item : Item} {path : Path} {names : List String} {content : ByteArray}
    (file : item.kind? names = some (.file content)) : path.descend names ∈ item.files path := by
  induction names generalizing item path with
  | nil =>
    cases item with
    | file content => exact List.mem_singleton_self path
    | directory entries => cases file
  | cons name names ih =>
    rw [kind?_cons] at file
    obtain ⟨inner, entry, below⟩ := Option.bind_eq_some_iff.1 file
    cases item with
    | file content => cases entry
    | directory entries =>
      obtain ⟨front, back, rfl, -⟩ := List.lookup_eq_some_iff.1 entry
      exact mem_filesOf (by simp : (name, inner) ∈ _) (ih below)

end Item

namespace Tree

/-- A tree whose items are proper. -/
def Proper (tree : Tree) : Prop := tree.root.isProper = true

instance (tree : Tree) : Decidable tree.Proper := inferInstanceAs (Decidable (_ = true))

theorem follow_names {tree : Tree} {place : Location} {names : List String}
    (down : ∀ name ∈ names, Path.leadsDown name = true)
    (found : (tree.kind? (place ++ names)).isSome) :
    tree.follow place names =
      if ∀ name ∈ names, name.utf8ByteSize ≤ nameLimit then .ok (place ++ names)
      else .error .nameTooLong := by
  induction names generalizing place with
  | nil => rw [if_pos (by simp), List.append_nil]; rfl
  | cons name names ih =>
    obtain ⟨own, rest⟩ := List.forall_mem_cons.1 down
    obtain ⟨named, parent⟩ := Path.leadsDown_iff.1 own
    have directory : tree.isDirectoryAt place = true := isDirectoryAt_iff.2 (kind?_above found)
    have further : place ++ name :: names = place ++ [name] ++ names := by simp
    rw [follow, directory, if_neg (by simp), if_neg (by simp [named]), if_neg parent]
    simp only [List.forall_mem_cons]
    by_cases long : nameLimit < name.utf8ByteSize
    · rw [if_pos long, if_neg (fun short => absurd short.1 (Nat.not_le.2 long))]
    · have there : (tree.kind? (place ++ [name])).isSome := by
        cases names with
        | nil => exact found
        | cons n ns =>
          rw [further] at found
          rw [kind?_above found]
          rfl
      rw [if_neg long, isSome_at?, if_pos there, further, ih rest (further ▸ found)]
      simp only [Nat.not_lt.1 long, true_and]

structure Settled (tree : Tree) (p : Path) : Prop where
  file : ∃ content, tree.kind? (tree.target p) = some (.file content)
  locate : ∀ later, Grows tree later → later.locate p = tree.locate p

theorem find_eq_ok {tree : Tree} {p : Path} {item : Item} :
    tree.find p = .ok item ↔
      tree.locate p = .ok (tree.target p) ∧ tree.at? (tree.target p) = some item := by
  rw [find]
  cases located : tree.locate p with
  | error e => simp [bind, Except.bind]
  | ok place =>
    obtain rfl := locate_eq_target located
    cases found : tree.at? (tree.target p) <;> simp [bind, Except.bind, found, pure, Except.pure]

theorem exists?_iff {tree : Tree} {p : Path} :
    tree.exists? p = true ↔ ∃ item, tree.find p = .ok item := by
  rw [exists?]
  cases tree.find p <;> simp [Except.toOption]

theorem kind?_append {tree : Tree} {place below : Location} {item : Item}
    (found : tree.at? place = some item) : tree.kind? (place ++ below) = item.kind? below := by
  rw [at?, Item.at?] at found
  rw [kind?, Item.kind?, Item.at?, List.foldlM_append, found]
  rfl

theorem mem_files_iff {tree : Tree} {root f : Path} {item : Item} (proper : tree.Proper)
    (found : tree.find root = .ok item) : f ∈ item.files root ↔ ∃ names, f = root.descend names ∧
      (∀ name ∈ names, Path.leadsDown name = true) ∧
        ∃ content, tree.kind? (tree.target f) = some (.file content) := by
  have here := (find_eq_ok.1 found).2
  have place {names : List String} (down : ∀ name ∈ names, Path.leadsDown name = true) :
      tree.kind? (tree.target (root.descend names)) = item.kind? names := by
    rw [target_descend tree root down, kind?_append here]
  constructor
  · intro mem
    obtain ⟨names, content, rfl, down, file⟩ :=
      Item.exists_of_mem_files item (Item.isProper_at? proper here) mem
    exact ⟨names, rfl, down, content, (place down).trans file⟩
  · rintro ⟨names, rfl, down, content, file⟩
    exact Item.descend_mem_files ((place down).symm.trans file)

theorem settled_of_mem_files {tree : Tree} {root f : Path} {item : Item} (proper : tree.Proper)
    (found : tree.find root = .ok item) (mem : f ∈ item.files root) : tree.Settled f := by
  obtain ⟨located, here⟩ := find_eq_ok.1 found
  obtain ⟨names, content, rfl, down, inside⟩ :=
    Item.exists_of_mem_files item (Item.isProper_at? proper here) mem
  have place : tree.kind? (tree.target root ++ names) = some (.file content) :=
    (kind?_append here).trans inside
  refine ⟨⟨content, by rw [target_descend tree root down, place]⟩, fun later grows => ?_⟩
  cases names with
  | nil =>
    rw [show root.descend [] = root from rfl, located]
    exact grows.locate located
  | cons name names =>
    have way := follow_way (locate_eq_ok.1 located).2
    have follows {t : Tree} (grows : Grows tree t) :
        t.follow (t.startOf (root.descend (name :: names)))
          (root.descend (name :: names)).segments = if ∀ n ∈ name :: names, n.utf8ByteSize ≤ nameLimit
          then .ok (tree.target root ++ name :: names) else .error .nameTooLong := by
      rw [startOf, Path.isAbsolute_descend, ← startOf, Path.segments_descend root down,
        follow_append, grows.startOf, grows.follow way]
      exact follow_names down (grows.isSome (by rw [place]; rfl))
    rw [Tree.locate, Tree.locate, follows grows, follows (.refl tree)]

theorem Settled.readText {tree later : Tree} {p : Path} (settled : tree.Settled p)
    (grows : Grows tree later)
    (same : later.kind? (tree.target p) = tree.kind? (tree.target p)) :
    later.readText p = tree.readText p := by
  obtain ⟨content, file⟩ := settled.file
  have file' : later.kind? (later.target p) = some (.file content) := by
    rw [grows.target, same, file]
  rw [Tree.readText, Tree.readText, read_of_file file', read_of_file file,
    settled.locate later grows]

end Tree

end BundlePrep.FileTree
