import BundlePrep.Proofs.FileTree.Proper
import BundlePrep.Proofs.FileTree.Relative
import BundlePrep.Proofs.FileTree.Spelling

/-!
# Directories that stand elsewhere

What is found below a directory depends on its item alone and not on where the directory stands, as
long as the paths do not become too long to be followed and do not lead above it.
-/

set_option autoImplicit false

namespace BundlePrep.FileTree

namespace Path

/-- A path with more segments behind it. -/
def extend (base : Path) (inner : List String) : Path := ⟨base.way ++ inner⟩

def further (inner : List String) (name : String) : List String := (mk inner).way ++ [name]

def Named (base : Path) : Prop := ∃ ns, ns ≠ [] ∧
  (∀ n ∈ ns, leadsDown n = true ∧ '/' ∉ n.toList) ∧ (base.way = ns ∨ base.way = "" :: ns)

def weight : List String → Nat
  | [] => 0
  | s :: inner => s.utf8ByteSize + 1 + weight inner

theorem weight_eq {inner : List String} (some : inner ≠ []) :
    weight inner = (Path.mk inner).text.utf8ByteSize + 1 := by
  induction inner with
  | nil => exact absurd rfl some
  | cons s inner ih =>
    cases inner with
    | nil => rfl
    | cons t inner =>
      have slash : "/".utf8ByteSize = 1 := rfl
      rw [text_cons_cons, String.utf8ByteSize_append, String.utf8ByteSize_append, slash, weight,
        ih (List.cons_ne_nil _ _)]
      omega

section

variable {base : Path} {inner : List String}

theorem Named.way_ne_nil (named : base.Named) : base.way ≠ [] := by
  obtain ⟨ns, some, -, rfl | way⟩ := named
  · exact some
  · rw [way]
    exact List.cons_ne_nil _ _

theorem Named.getLast? (named : base.Named) : ∃ n, base.way.getLast? = some n ∧ n ≠ "" := by
  obtain ⟨ns, some, leads, way⟩ := named
  obtain ⟨front, n, rfl⟩ := List.eq_nil_or_concat ns |>.resolve_left some
  refine ⟨n, ?_, ?_⟩
  · rcases way with way | way <;> simp [way, List.getLast?_cons]
  · rintro rfl
    exact absurd (leads "" (by simp)).1 (by decide)

theorem way_append (front : List String) (some : inner ≠ []) :
    (mk (front ++ inner)).way = front ++ (mk inner).way := by
  obtain ⟨before, s, rfl⟩ := List.eq_nil_or_concat inner |>.resolve_left some
  rw [List.concat_eq_append, ← List.append_assoc]
  by_cases slash : s = ""
  · simp [way, slash]
  · simp [way, slash]

theorem way_extend (named : base.Named) : (base.extend inner).way = base.way ++ (mk inner).way := by
  cases inner with
  | nil =>
    obtain ⟨n, last, full⟩ := named.getLast?
    rw [extend, List.append_nil]
    show (if base.way.getLast? = some "" then base.way.dropLast else base.way) = base.way ++ []
    rw [last, if_neg (by simpa using full), List.append_nil]
  | cons s inner => exact way_append base.way (List.cons_ne_nil s inner)

theorem join_extend (named : base.Named) {p : Path} (relative : p.isAbsolute = false) :
    (base.extend inner).join p = base.extend ((mk inner).way ++ p.segments) := by
  rw [join_eq relative, way_extend named, List.append_assoc]
  rfl

theorem child_extend (named : base.Named) (name : String) :
    (base.extend inner).child name = base.extend (further inner name) :=
  join_extend named (isAbsolute_singleton name)

theorem names_append (front inner : List String) :
    names (front ++ inner) = names front ++ names inner := List.filter_append ..

theorem names_way (inner : List String) : names (mk inner).way = names inner := by
  rcases (mk inner).segments_eq_way with same | same
  · exact congrArg names same.symm
  · have whole : inner = (mk inner).way ++ [""] := same
    conv_rhs => rw [whole, names_append]
    exact (List.append_nil _).symm

theorem components_absolute {ss : List String} (some : ss ≠ []) :
    (mk ("" :: ss)).components = .root :: (names ss).map componentOf := by
  obtain ⟨s, ss, rfl⟩ := List.exists_cons_of_ne_nil some
  rfl

theorem Named.cases (named : base.Named) :
    (∃ ns, ns ≠ [] ∧ base.way = "" :: ns) ∨ ∃ n ns, base.way = n :: ns ∧ passed n = false := by
  obtain ⟨ns, some, leads, way | way⟩ := named
  · obtain ⟨n, ns, rfl⟩ := List.exists_cons_of_ne_nil some
    exact .inr ⟨n, ns, way, (leadsDown_iff.1 (leads n (List.mem_cons_self ..)).1).1⟩
  · exact .inl ⟨ns, some, way⟩

theorem isAbsolute_of_way (named : base.Named) {p : Path} (front : p.segments = base.way ++ inner) :
    p.isAbsolute = (base.way.head? == some "") := by
  obtain ⟨segments⟩ := p
  obtain rfl : segments = base.way ++ inner := front
  obtain ⟨ns, more, way⟩ | ⟨n, ns, way, counts⟩ := named.cases
  · rw [way, List.cons_append, isAbsolute_cons_of_ne_nil (by simp [more])]
    rfl
  · have full : n ≠ "" := by
      rintro rfl
      cases counts
    rw [way, List.cons_append, isAbsolute_cons_of_ne full]
    simp [full]

theorem Named.isAbsolute (named : base.Named) : base.isAbsolute = (base.way.head? == some "") := by
  rcases base.segments_eq_way with own | own
  · exact isAbsolute_of_way named (own.trans (List.append_nil _).symm)
  · exact isAbsolute_of_way named own

theorem isAbsolute_extend (named : base.Named) (inner : List String) :
    (base.extend inner).isAbsolute = base.isAbsolute :=
  (isAbsolute_of_way named rfl).trans named.isAbsolute.symm

theorem components_extend (named : base.Named) (inner : List String) :
    (base.extend inner).components = base.components ++ (names inner).map componentOf := by
  have same {q : Path} {inner : List String} (front : q.segments = base.way ++ inner) :
      q.components = (mk base.way).components ++ (names inner).map componentOf := by
    obtain ⟨segments⟩ := q
    obtain rfl : segments = base.way ++ inner := front
    obtain ⟨ns, more, way⟩ | ⟨n, ns, way, counts⟩ := named.cases
    · rw [way, List.cons_append, components_absolute more, components_absolute (by simp [more]),
        names_append, List.map_append, List.cons_append]
    · rw [way, List.cons_append, Plain.components (.inr ⟨n, _, rfl, counts⟩),
        Plain.components (.inr ⟨n, _, rfl, counts⟩), ← List.cons_append, names_append,
        List.map_append]
  have own : base.components = (mk base.way).components := by
    rcases base.segments_eq_way with whole | whole
    · exact congrArg components (congrArg mk whole)
    · rw [same whole]
      exact List.append_nil _
  rw [own]
  exact same rfl

theorem Named.components_ne_nil (named : base.Named) : base.components ≠ [] := by
  have same := components_extend named []
  rw [extend, List.append_nil, names, List.filter_nil, List.map_nil, List.append_nil] at same
  rw [← same]
  obtain ⟨ns, more, way⟩ | ⟨n, ns, way, counts⟩ := named.cases
  · rw [way, components_absolute more]
    exact List.cons_ne_nil _ _
  · rw [way, Plain.components (.inr ⟨n, ns, rfl, counts⟩), names,
      List.filter_cons_of_pos (by simpa using counts), List.map_cons]
    exact List.cons_ne_nil _ _

theorem components_ne_current (named : base.Named) (inner : List String) :
    (base.extend inner).components ≠ [.current] := by
  obtain ⟨ns, more, way⟩ | ⟨n, ns, way, counts⟩ := named.cases
  · rw [extend, way, List.cons_append, components_absolute (by simp [more])]
    simp
  · rw [extend, way, List.cons_append, Plain.components (.inr ⟨n, _, rfl, counts⟩), names,
      List.filter_cons_of_pos (by simpa using counts), List.map_cons, componentOf]
    split <;> simp

theorem text_extend (named : base.Named) (inner : List String) :
    ∃ rest, (base.extend inner).text = (mk base.way).text ++ rest ∧
      rest.utf8ByteSize = weight inner ∧
      ∀ c, c ≠ '/' → (c ∈ rest.toList ↔ c ∈ (mk inner).text.toList) := by
  by_cases some : inner = []
  · subst some
    exact ⟨"", by rw [extend, List.append_nil, String.append_empty], rfl, fun c _ => Iff.rfl⟩
  · refine ⟨"/" ++ (mk inner).text, ?_, ?_, fun c other => ?_⟩
    · rw [extend, text_append named.way_ne_nil some, String.append_assoc]
    · rw [weight_eq some, String.utf8ByteSize_append, Nat.add_comm]
      rfl
    · simp [other]

theorem Named.text_way (named : base.Named) : (mk base.way).text ≠ "" ∧
    (base.text = (mk base.way).text ∨ base.text = (mk base.way).text ++ "/") := by
  constructor
  · intro empty
    obtain ⟨n, last, full⟩ := named.getLast?
    rcases text_eq_empty empty with none | single
    · exact named.way_ne_nil none
    · have single : base.way = [""] := single
      rw [single] at last
      exact full (Option.some.inj last).symm
  · rcases base.segments_eq_way with own | own
    · exact .inl (congrArg text (congrArg mk own))
    · refine .inr ?_
      have slash : (mk (base.way ++ [""])).text = (mk base.way).text ++ "/" ++ (mk [""]).text :=
        text_append named.way_ne_nil (List.cons_ne_nil _ _)
      rw [← String.append_empty (s := (mk base.way).text ++ "/")]
      exact (congrArg text (congrArg mk own)).trans slash

end

end Path

/-! ## What segments lead to from an item -/

theorem toOption_eq_some {ε α : Type} {x : Except ε α} {a : α} :
    x.toOption = some a ↔ x = .ok a := by
  cases x <;> simp [Except.toOption]

namespace Item

def find? (item : Item) (inner : List String) : Option Item :=
  if '\x00' ∈ (Path.mk inner).text.toList then none
  else ((Tree.mk item []).follow [] inner).toOption.bind item.at?

theorem find?_eq_some {item below : Item} {inner : List String} :
    item.find? inner = some below ↔ '\x00' ∉ (Path.mk inner).text.toList ∧ ∃ location,
      (Tree.mk item []).follow [] inner = .ok location ∧ item.at? location = some below := by
  rw [find?]
  split_ifs with bad
  · simp [bad]
  · rw [Option.bind_eq_some_iff]
    simp only [toOption_eq_some, bad, not_false_eq_true, true_and]

mutual
def reach : Item → Nat
  | .file _ => 0
  | .directory entries => reachOf entries

def reachOf : List (String × Item) → Nat
  | [] => 0
  | (name, item) :: entries => max (name.utf8ByteSize + 1 + reach item) (reachOf entries)
end

theorem le_reachOf {name : String} {item : Item} {entries : List (String × Item)}
    (h : (name, item) ∈ entries) : name.utf8ByteSize + 1 + item.reach ≤ reachOf entries := by
  induction entries with
  | nil => cases h
  | cons entry entries ih =>
    obtain ⟨n, i⟩ := entry
    rw [reachOf]
    rcases List.mem_cons.1 h with same | mem
    · cases same
      exact Nat.le_max_left ..
    · exact (ih mem).trans (Nat.le_max_right ..)

theorem weight_le_reach {item inner : Item} {location : Location}
    (h : item.at? location = some inner) : Path.weight location ≤ item.reach := by
  induction location generalizing item with
  | nil => exact Nat.zero_le _
  | cons name location ih =>
    rw [at?, List.foldlM_cons] at h
    obtain ⟨below, entry, rest⟩ := Option.bind_eq_some_iff.1 h
    have further := ih rest
    cases item with
    | file content => cases entry
    | directory entries =>
      obtain ⟨front, back, rfl, -⟩ := List.lookup_eq_some_iff.1 entry
      have long := le_reachOf (by simp : (name, below) ∈ front ++ (name, below) :: back)
      rw [Path.weight, reach]
      omega

end Item

namespace Tree

theorem at?_append {tree : Tree} {place : Location} {item : Item}
    (found : tree.at? place = some item) (location : Location) :
    tree.at? (place ++ location) = item.at? location := by
  rw [at?, Item.at?] at found
  rw [at?, Item.at?, List.foldlM_append, found]
  rfl

theorem follow_within {tree : Tree} {place : Location} {item : Item}
    (found : tree.at? place = some item) {inner : List String} (inward : ".." ∉ inner)
    (location : Location) : tree.follow (place ++ location) inner =
      ((Tree.mk item []).follow location inner).map (place ++ ·) := by
  induction inner generalizing location with
  | nil => rfl
  | cons s inner ih =>
    obtain ⟨own, others⟩ := List.ne_and_not_mem_of_not_mem_cons inward
    have directory : tree.isDirectoryAt (place ++ location) =
        (Tree.mk item []).isDirectoryAt location := by
      rw [isDirectoryAt, at?_append found]
      rfl
    have entry : tree.at? (place ++ location ++ [s]) = (Tree.mk item []).at? (location ++ [s]) := by
      rw [List.append_assoc, at?_append found]
      rfl
    rw [follow, follow, directory, entry, ih others, List.append_assoc, ih others]
    split_ifs with a b c d e
    all_goals first | rfl | exact absurd c own.symm

theorem target_extend {tree : Tree} {base : Path} {inner : List String} (named : base.Named)
    (inward : ".." ∉ inner) :
    tree.target (base.extend inner) = tree.target base ++ Path.names inner := by
  rw [target, startOf, Path.isAbsolute_extend named, ← startOf, Path.extend, walk_append,
    ← target_eq_way, walk_eq_append inward]
  rfl

theorem find_extend {tree : Tree} {base : Path} {item : Item} {inner : List String}
    (named : base.Named) (found : tree.find base = .ok item) (inward : ".." ∉ inner)
    (short : (item.find? inner).isSome → (base.extend inner).text.utf8ByteSize < pathLimit) :
    (tree.find (base.extend inner)).toOption = item.find? inner := by
  obtain ⟨located, here⟩ := find_eq_ok.1 found
  obtain ⟨checked, followed⟩ := locate_eq_ok.1 located
  obtain ⟨clean, -, -⟩ := checkPath_eq_ok.1 checked
  obtain ⟨full, own⟩ := named.text_way
  obtain ⟨rest, text, -, characters⟩ := Path.text_extend named inner
  have follows : tree.follow (tree.startOf (base.extend inner)) (base.extend inner).segments =
      ((Tree.mk item []).follow [] inner).map (tree.target base ++ ·) := by
    have within := follow_within here inward []
    rw [List.append_nil] at within
    rw [startOf, Path.isAbsolute_extend named, ← startOf, Path.extend, follow_append,
      follow_way followed]
    exact within
  have nul : '\x00' ∈ (base.extend inner).text.toList ↔ '\x00' ∈ (Path.mk inner).text.toList := by
    have front : '\x00' ∉ (Path.mk base.way).text.toList := by
      rcases own with own | own <;> rw [own] at clean <;> simp_all
    rw [text, String.toList_append, List.mem_append, characters _ (by decide)]
    exact or_iff_right front
  have nonempty : (base.extend inner).text ≠ "" := by
    rw [text]
    simp [full]
  have found_iff (below : Item) : tree.find (base.extend inner) = .ok below ↔
      checkPath (base.extend inner) = .ok () ∧ ∃ location,
        (Tree.mk item []).follow [] inner = .ok location ∧ item.at? location = some below := by
    rw [find_eq_ok, locate_eq_ok, follows, and_assoc]
    refine and_congr_right fun _ => ?_
    cases steps : (Tree.mk item []).follow [] inner with
    | error e => simp [Except.map]
    | ok location =>
      have place : tree.target base ++ location = tree.target (base.extend inner) := by
        rw [target_extend named inward, follow_eq_walk steps, walk_eq_append inward]
        rfl
      simp only [Except.map, Except.ok.injEq, exists_eq_left', ← place, true_and]
      rw [at?_append here]
  apply Option.ext
  intro below
  rw [Item.find?_eq_some, toOption_eq_some, found_iff, checkPath_eq_ok, nul]
  constructor
  · rintro ⟨⟨bad, -⟩, there⟩
    exact ⟨bad, there⟩
  · rintro ⟨bad, there⟩
    have some := Item.find?_eq_some.2 ⟨bad, there⟩
    exact ⟨⟨bad, nonempty, short (by rw [some]; rfl)⟩, there⟩

end Tree

/-! ## Directories with the same item -/

namespace Path

structure Inward (spare : Nat) (inner : List String) : Prop where
  inward : ".." ∉ inner
  few : (inner.filter passed).length ≤ spare

theorem Inward.nil (spare : Nat) : Inward spare [] := ⟨List.not_mem_nil, Nat.zero_le _⟩

theorem Inward.mono {spare more : Nat} {inner : List String} (h : Inward spare inner)
    (le : spare ≤ more) : Inward more inner := ⟨h.inward, h.few.trans le⟩

theorem way_prefix (p : Path) : p.way <+: p.segments := by
  rcases p.segments_eq_way with same | same
  · exact ⟨[], (List.append_nil _).trans same.symm⟩
  · exact ⟨[""], same.symm⟩

theorem Inward.way {spare : Nat} {inner : List String} (h : Inward spare inner) :
    Inward spare (Path.mk inner).way := by
  have front : (Path.mk inner).way <+: inner := way_prefix (Path.mk inner)
  exact ⟨fun mem => h.inward (front.subset mem),
    ((front.sublist.filter passed).length_le).trans h.few⟩

theorem Inward.passed {spare : Nat} {inner : List String} (h : Inward spare inner) {s : String}
    (inward : s ≠ "..") : Inward (spare + 1) (further inner s) := by
  rw [further]
  refine ⟨by simp [h.way.inward, inward.symm], ?_⟩
  have few := h.way.few
  have one : ([s].filter Path.passed).length ≤ 1 := List.length_filter_le ..
  rw [List.filter_append, List.length_append]
  omega

theorem Inward.name {spare : Nat} {inner : List String} (h : Inward spare inner) {s : String}
    (down : leadsDown s = true) : Inward spare (further inner s) := by
  rw [further]
  obtain ⟨counts, inward⟩ := leadsDown_iff.1 down
  refine ⟨by simp [h.way.inward, inward.symm], ?_⟩
  rw [List.filter_append, List.filter_cons_of_neg (by simp [counts]), List.filter_nil,
    List.append_nil]
  exact h.way.few

theorem weight_le (inner : List String) :
    weight inner ≤ weight (names inner) + 2 * (inner.filter passed).length := by
  induction inner with
  | nil => exact Nat.le_refl 0
  | cons s inner ih =>
    rw [weight, names]
    by_cases skipped : Path.passed s = true
    · have size : s.utf8ByteSize ≤ 1 := by
        rcases (by simpa [Path.passed] using skipped : s = "" ∨ s = ".") with rfl | rfl <;> decide
      rw [List.filter_cons_of_pos skipped, List.filter_cons_of_neg (by simp [skipped]), ← names,
        List.length_cons]
      omega
    · rw [List.filter_cons_of_neg skipped, List.filter_cons_of_pos (by simpa using skipped),
        weight, ← names]
      omega

end Path

/-- A directory that holds an item at a path made of names, with room for some segments behind those
of the item. -/
structure Houses (item : Item) (spare : Nat) (tree : Tree) (base : Path) : Prop where
  named : base.Named
  found : tree.find base = .ok item
  short : base.text.utf8ByteSize + item.reach + 2 * spare < pathLimit

theorem Houses.find {item : Item} {spare : Nat} {tree : Tree} {base : Path} {inner : List String}
    (h : Houses item spare tree base) (inside : Path.Inward spare inner) :
    (tree.find (base.extend inner)).toOption = item.find? inner := by
  refine Tree.find_extend h.named h.found inside.inward fun some => ?_
  obtain ⟨below, found⟩ := Option.isSome_iff_exists.1 some
  obtain ⟨-, location, steps, there⟩ := Item.find?_eq_some.1 found
  have names : location = Path.names inner := by
    rw [Tree.follow_eq_walk steps, walk_eq_append inside.inward]
    rfl
  obtain ⟨rest, text, size, -⟩ := Path.text_extend h.named inner
  have reach := Item.weight_le_reach there
  have weight := Path.weight_le inner
  have few := inside.few
  have short := h.short
  have way : (Path.mk base.way).text.utf8ByteSize ≤ base.text.utf8ByteSize := by
    rcases h.named.text_way.2 with own | own <;> rw [own]
    rw [String.utf8ByteSize_append]
    omega
  rw [names] at reach
  rw [text, String.utf8ByteSize_append]
  omega

/-! ## The files of an item elsewhere -/

namespace Path

theorem names_descend (inner : List String) {ns : List String}
    (down : ∀ n ∈ ns, leadsDown n = true) :
    names (descend ⟨inner⟩ ns).segments = names inner ++ ns := by
  cases ns with
  | nil => exact (List.append_nil _).symm
  | cons n ns =>
    have kept : names (n :: ns) = n :: ns := List.filter_eq_self.2 fun m mem => by
      rw [(leadsDown_iff.1 (down m mem)).1]
      rfl
    rw [segments_descend _ down, names_append, names_way, kept]

end Path

namespace Item

mutual
theorem files_extend {base : Path} (named : base.Named) (inner : List String) : (item : Item) →
    item.files (base.extend inner) = (item.files ⟨inner⟩).map fun f => base.extend f.segments
  | .file _ => rfl
  | .directory entries => filesOf_extend named (fun name => by
      rw [Path.child_extend named, Path.segments_child, Path.further]) entries

theorem filesOf_extend {base path : Path} (named : base.Named) {inner : List String}
    (same : ∀ name, path.child name = base.extend (Path.child ⟨inner⟩ name).segments) :
    (entries : List (String × Item)) → filesOf path entries =
      (filesOf ⟨inner⟩ entries).map fun f => base.extend f.segments
  | [] => rfl
  | (name, item) :: entries => by
    rw [filesOf, filesOf, List.map_append, filesOf_extend named same entries, same name,
      files_extend named]
end

theorem files_of_isDirectory {base : Path} (named : base.Named) {item : Item}
    (directory : item.isDirectory = true) :
    item.files base = (item.files ⟨[]⟩).map fun f => base.extend f.segments := by
  cases item with
  | file content => cases directory
  | directory entries =>
    refine filesOf_extend named (fun name => ?_) entries
    rw [Path.segments_child, Path.child, Path.join_eq (Path.isAbsolute_singleton name)]
    rfl

theorem exists_kind?_of_mem_files {item below : Item} (proper : item.isProper = true)
    {inner : List String} (inward : ".." ∉ inner) (found : item.find? inner = some below)
    {f : Path} (h : f ∈ below.files ⟨inner⟩) :
    ∃ content, item.kind? (Path.names f.segments) = some (.file content) := by
  obtain ⟨-, location, steps, there⟩ := find?_eq_some.1 found
  obtain ⟨ns, content, rfl, down, file⟩ := exists_of_mem_files below (isProper_at? proper there) h
  have place : location = Path.names inner := by
    rw [Tree.follow_eq_walk steps, walk_eq_append inward]
    rfl
  refine ⟨content, ?_⟩
  rw [Path.names_descend inner down, ← place, ← file]
  exact @Tree.kind?_append ⟨item, []⟩ location ns below there

end Item

end BundlePrep.FileTree
