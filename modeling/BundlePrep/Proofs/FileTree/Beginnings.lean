import BundlePrep.Proofs.FileTree.Rewriting

/-!
# The beginnings of a path

Taking the last component off a path, again and again, runs through its beginnings. Where they lead
changes by one step each time: to the directory above if the component was a name, to one below if it
was two dots, and nowhere else if it was the dot at the beginning. So no directory above a path is left
out on the way up, and without two dots no other directory is visited.
-/

set_option autoImplicit false

namespace BundlePrep.FileTree

namespace Path

theorem componentOf_ne_root (s : String) : componentOf s ≠ .root := by
  rw [componentOf]
  split <;> simp

theorem isAbsolute_iff {p : Path} :
    p.isAbsolute = true ↔ p.components.head? = some .root := by
  have named (ss : List String) : ((names ss).map componentOf).head? ≠ some .root := by
    rw [List.head?_map]
    cases (names ss).head? with
    | none => simp
    | some s => simp [componentOf_ne_root s]
  rw [isAbsolute, components]
  rcases p.parts_cases with ⟨ss, -, -, parts⟩ | ⟨ss, -, parts⟩ | ⟨parts, -⟩
  · simp [parts, firstComponent]
  · simp [parts, firstComponent]
  · rw [parts]
    exact iff_of_false (by simp) (named p.segments)

theorem components_ofParts {first ss : List String} (leads : first = [""] ∨ first = ["."] ∨
    first = [] ∧ ∀ s, ss.head? = some s → passed s = false) :
    (ofParts first ss).components = firstComponent first ++ (names ss).map componentOf := by
  rcases leads with rfl | rfl | ⟨rfl, named⟩
  · cases ss <;> rfl
  · cases ss <;> rfl
  · obtain ⟨plain, same⟩ := plain_ofParts named
    rw [plain.components, same]
    rfl

theorem passed_of_head?_trimEnd {p : Path} (parts : p.parts.1 = []) {s : String}
    (head : (trimEnd p.parts.2).head? = some s) : passed s = false := by
  obtain ⟨segments⟩ := p
  rcases (Path.mk segments).parts_cases with ⟨ss, -, -, own⟩ | ⟨ss, -, own⟩ | ⟨own, single⟩
  · simp [own] at parts
  · simp [own] at parts
  · rw [own] at head
    obtain ⟨ss, rfl⟩ := List.head?_eq_some_iff.1 (head?_trimEnd head)
    by_cases empty : s = ""
    · obtain rfl : ss = [] := single s ss rfl empty
      rw [empty] at head
      cases head
    · by_cases dot : s = "."
      · rw [dot] at own
        cases own
      · simp [passed, empty, dot]

theorem parts_fst_cases (p : Path) : p.parts.1 = [""] ∨ p.parts.1 = ["."] ∨ p.parts.1 = [] := by
  rcases p.parts_cases with ⟨ss, -, -, parts⟩ | ⟨ss, -, parts⟩ | ⟨parts, -⟩ <;> simp [parts]

theorem components_of_parent? {p above : Path} (h : p.parent? = some above) :
    ∃ c, c ≠ .root ∧ p.components = above.components ++ [c] := by
  rw [parent?] at h
  dsimp only at h
  split at h
  next last ss cut =>
    obtain rfl := Option.some.inj h
    have rest : trimEnd p.parts.2 = ss.reverse ++ [last] := by
      rw [← List.reverse_reverse (trimEnd _), cut, List.reverse_cons]
    have named : passed last = false := by
      rw [trimEnd, List.reverse_reverse] at cut
      simpa [cut] using List.head?_dropWhile_not passed p.parts.2.reverse
    have leads : p.parts.1 = [""] ∨ p.parts.1 = ["."] ∨
        p.parts.1 = [] ∧ ∀ s, (trimEnd ss.reverse).head? = some s → passed s = false := by
      refine p.parts_fst_cases.imp_right (Or.imp_right fun none => ⟨none, fun s head => ?_⟩)
      refine passed_of_head?_trimEnd none ?_
      rw [rest, List.head?_append, head?_trimEnd head]
      rfl
    refine ⟨componentOf last, componentOf_ne_root last, ?_⟩
    rw [components_ofParts leads, names_trimEnd, components, ← names, ← names_trimEnd, rest, names,
      names, List.filter_append, List.filter_cons_of_pos (by simp [named]), List.filter_nil,
      List.map_append, ← List.append_assoc, List.map_singleton]
  next none =>
    split at h
    next dot =>
      obtain rfl := Option.some.inj h
      refine ⟨.current, by simp, ?_⟩
      rw [components, ← names, ← names_trimEnd, List.reverse_eq_nil_iff.1 none, dot]
      rfl
    next => cases h

theorem components_of_parent?_eq_none {p : Path} (h : p.parent? = none) :
    p.components = [] ∨ p.components = [.root] := by
  rw [parent?] at h
  dsimp only at h
  split at h
  · cases h
  next none =>
    rw [components, ← names, ← names_trimEnd, List.reverse_eq_nil_iff.1 none]
    rcases p.parts_fst_cases with root | dot | relative
    · exact .inr (by rw [root]; rfl)
    · rw [if_pos dot] at h
      cases h
    · exact .inl (by rw [relative]; rfl)

theorem isAbsolute_of_parent? {p above : Path} (h : p.parent? = some above) :
    above.isAbsolute = p.isAbsolute := by
  obtain ⟨c, inner, components⟩ := components_of_parent? h
  rw [Bool.eq_iff_iff, isAbsolute_iff, isAbsolute_iff, components, List.head?_append]
  cases above.components.head? <;> simp [inner]

theorem parent_not_mem_components {p : Path} (plain : ".." ∉ p.segments) :
    .parent ∉ p.components := by
  have inner : ".." ∉ p.parts.2 := by
    rcases p.parts_cases with ⟨ss, -, segments, parts⟩ | ⟨ss, segments, parts⟩ | ⟨parts, -⟩ <;>
      simp_all
  rw [components, List.mem_append, not_or]
  constructor
  · rcases p.parts_fst_cases with first | first | first <;> simp [first, firstComponent]
  · intro mem
    obtain ⟨s, kept, parent⟩ := List.mem_map.1 mem
    rw [componentOf] at parent
    split at parent
    next same => exact inner (same ▸ (List.mem_filter.1 kept).1)
    next => cases parent

theorem length_components_le (p : Path) : p.components.length ≤ p.segments.length := by
  have kept := List.length_filter_le (!passed ·) p.parts.2
  rw [components, List.length_append, List.length_map]
  rcases p.parts_cases with ⟨ss, -, segments, parts⟩ | ⟨ss, segments, parts⟩ | ⟨parts, -⟩
  · simp only [parts, segments, firstComponent, List.length_cons, List.length_nil] at kept ⊢
    omega
  · simp only [parts, segments, firstComponent, List.length_cons, List.length_nil] at kept ⊢
    omega
  · simpa only [parts, firstComponent, List.length_nil, Nat.zero_add] using kept

/-! ## Going up -/

def rise : Nat → Path → List Path
  | 0, p => [p]
  | n + 1, p =>
    match p.parent? with
    | none => [p]
    | some above => p :: rise n above

/-- A path and the paths above it. -/
def beginnings (p : Path) : List Path := rise p.components.length p

theorem beginnings_of_none {p : Path} (h : p.parent? = none) : p.beginnings = [p] := by
  rw [beginnings]
  cases p.components.length with
  | zero => rfl
  | succ n => rw [rise, h]

theorem beginnings_of_some {p above : Path} (h : p.parent? = some above) :
    p.beginnings = p :: above.beginnings := by
  obtain ⟨c, -, components⟩ := components_of_parent? h
  rw [beginnings, components, List.length_append, List.length_singleton, rise, h]
  rfl

theorem exists_beginnings_eq_cons (p : Path) : ∃ back, p.beginnings = p :: back := by
  cases h : p.parent? with
  | none => exact ⟨[], beginnings_of_none h⟩
  | some above => exact ⟨above.beginnings, beginnings_of_some h⟩

theorem self_mem_beginnings (p : Path) : p ∈ p.beginnings := by
  obtain ⟨back, whole⟩ := p.exists_beginnings_eq_cons
  rw [whole]
  exact List.mem_cons_self

theorem eq_of_beginnings_eq_cons {p q : Path} {back : List Path} (h : p.beginnings = q :: back) :
    q = p := by
  obtain ⟨back', whole⟩ := p.exists_beginnings_eq_cons
  exact (List.cons.inj (h.symm.trans whole)).1

/-- Induction along the paths above a path. -/
@[elab_as_elim]
theorem parentInduction {motive : Path → Prop} (ends : ∀ p, p.parent? = none → motive p)
    (up : ∀ p above, p.parent? = some above → motive above → motive p) (p : Path) : motive p := by
  generalize size : p.components.length = n
  induction n generalizing p with
  | zero =>
    cases parent : p.parent? with
    | none => exact ends p parent
    | some above =>
      obtain ⟨c, -, components⟩ := components_of_parent? parent
      simp [components] at size
  | succ n ih =>
    cases parent : p.parent? with
    | none => exact ends p parent
    | some above =>
      obtain ⟨c, -, components⟩ := components_of_parent? parent
      exact up p above parent (ih above (by simpa [components] using size))

theorem beginnings_of_append {p q : Path} {front back : List Path}
    (h : p.beginnings = front ++ q :: back) : q.beginnings = q :: back := by
  induction p using parentInduction generalizing front with
  | ends p none =>
    cases front with
    | nil =>
      obtain rfl := eq_of_beginnings_eq_cons h
      exact h
    | cons r front => simp [beginnings_of_none none] at h
  | up p above parent ih =>
    cases front with
    | nil =>
      obtain rfl := eq_of_beginnings_eq_cons h
      exact h
    | cons r front =>
      rw [beginnings_of_some parent, List.cons_append] at h
      exact ih (List.cons.inj h).2

theorem size_of_parent? {p above : Path} (h : p.parent? = some above) :
    above.text.utf8ByteSize ≤ p.text.utf8ByteSize := by
  rcases parent?_eq_some h with empty | ⟨front, behind, some, more, segments, -, begins⟩
  · rw [text, empty]
    exact Nat.zero_le _
  · obtain ⟨rest, whole⟩ := exists_text_eq_append some more segments begins
    rw [whole, String.utf8ByteSize_append]
    exact Nat.le_add_right ..

theorem of_mem_beginnings {motive : Path → Prop} {p q : Path} (mem : q ∈ p.beginnings)
    (self : motive p) (up : ∀ r above, r.parent? = some above → motive r → motive above) :
    motive q := by
  induction p using parentInduction with
  | ends p none =>
    obtain rfl : q = p := by simpa [beginnings_of_none none] using mem
    exact self
  | up p above parent ih =>
    rw [beginnings_of_some parent] at mem
    rcases List.mem_cons.1 mem with rfl | mem
    · exact self
    · exact ih mem (up p above parent self)

theorem size_of_mem_beginnings {p q : Path} (mem : q ∈ p.beginnings) :
    q.text.utf8ByteSize ≤ p.text.utf8ByteSize :=
  of_mem_beginnings (motive := fun q => q.text.utf8ByteSize ≤ p.text.utf8ByteSize) mem (Nat.le_refl _)
    fun _ _ parent => (size_of_parent? parent).trans

end Path

/-! ## Where the beginnings lead -/

theorem lead_append (location : Location) (cs ds : List Component) :
    lead location (cs ++ ds) = lead (lead location cs) ds := by
  induction cs generalizing location with
  | nil => rfl
  | cons c cs ih => cases c <;> exact ih _

namespace Tree

variable {tree : Tree} {p above : Path}

theorem startOf_of_parent? (h : p.parent? = some above) : tree.startOf above = tree.startOf p := by
  rw [startOf, startOf, Path.isAbsolute_of_parent? h]

theorem target_of_parent?_eq_none (h : p.parent? = none) : tree.target p = tree.startOf p := by
  rw [target_eq_lead, startOf]
  rcases Path.components_of_parent?_eq_none h with none | root
  · have relative : p.isAbsolute = false := by
      rw [← Bool.not_eq_true, Path.isAbsolute_iff, none]
      simp
    rw [none, relative]
    rfl
  · have absolute : p.isAbsolute = true := by
      rw [Path.isAbsolute_iff, root]
      rfl
    rw [root, absolute]
    rfl

theorem target_of_parent? (tree : Tree) (h : p.parent? = some above) :
    tree.target p = tree.target above ∨ tree.target p = (tree.target above).dropLast ∧
      .parent ∈ p.components ∨ ∃ name, tree.target p = tree.target above ++ [name] := by
  obtain ⟨c, inner, components⟩ := Path.components_of_parent? h
  rw [target_eq_lead, components, lead_append, ← target_eq_lead]
  cases c with
  | root => exact absurd rfl inner
  | current => exact .inl rfl
  | parent => exact .inr (.inl ⟨rfl, by simp⟩)
  | normal name => exact .inr (.inr ⟨name, rfl⟩)

theorem prefix_of_parent? (h : p.parent? = some above) {location : Location}
    (inside : location <+: tree.target p) (other : location ≠ tree.target p) :
    location <+: tree.target above := by
  rcases target_of_parent? tree h with same | ⟨up, -⟩ | ⟨name, down⟩
  · rwa [← same]
  · rw [up] at inside
    exact inside.trans (List.dropLast_prefix _)
  · rw [down] at inside other
    exact (List.prefix_concat_iff.1 inside).resolve_left other

theorem exists_mem_beginnings {location : Location} (below : tree.startOf p <+: location)
    (inside : location <+: tree.target p) : ∃ r ∈ p.beginnings, tree.target r = location := by
  induction p using Path.parentInduction with
  | ends p none =>
    rw [← target_of_parent?_eq_none none] at below
    exact ⟨p, by simp [Path.beginnings_of_none none],
      below.eq_of_length_le inside.length_le⟩
  | up p above parent ih =>
    rw [Path.beginnings_of_some parent]
    by_cases same : location = tree.target p
    · exact ⟨p, List.mem_cons_self, same.symm⟩
    · rw [← startOf_of_parent? parent] at below
      obtain ⟨r, mem, place⟩ := ih below (prefix_of_parent? parent inside same)
      exact ⟨r, List.mem_cons_of_mem _ mem, place⟩

theorem exists_mem_front {q : Path} {front back : List Path} {location : Location}
    (h : p.beginnings = front ++ q :: back) (below : tree.target q <+: location)
    (inside : location <+: tree.target p) (other : location ≠ tree.target q) :
    ∃ r ∈ front, tree.target r = location := by
  induction p using Path.parentInduction generalizing front with
  | ends p none =>
    have own : q ∈ p.beginnings := by simp [h]
    obtain rfl : q = p := by simpa [Path.beginnings_of_none none] using own
    exact absurd (inside.eq_of_length_le below.length_le) other
  | up p above parent ih =>
    rw [Path.beginnings_of_some parent] at h
    cases front with
    | nil =>
      obtain ⟨rfl, -⟩ := List.cons.inj h
      exact absurd (inside.eq_of_length_le below.length_le) other
    | cons r front =>
      obtain ⟨rfl, rest⟩ := List.cons.inj h
      by_cases same : location = tree.target p
      · exact ⟨p, List.mem_cons_self, same.symm⟩
      · obtain ⟨r, mem, place⟩ := ih rest (prefix_of_parent? parent inside same)
        exact ⟨r, List.mem_cons_of_mem _ mem, place⟩

theorem target_prefix_of_parent? (tree : Tree) (inward : .parent ∉ p.components)
    (h : p.parent? = some above) :
    .parent ∉ above.components ∧ tree.target above <+: tree.target p := by
  obtain ⟨c, -, components⟩ := Path.components_of_parent? h
  refine ⟨fun mem => inward (by simp [components, mem]), ?_⟩
  rcases target_of_parent? tree h with same | ⟨-, up⟩ | ⟨name, down⟩
  · exact ⟨[], by rw [List.append_nil, same]⟩
  · exact absurd up inward
  · exact ⟨[name], down.symm⟩

theorem target_prefix_of_mem (tree : Tree) (inward : .parent ∉ p.components) {q : Path}
    (mem : q ∈ p.beginnings) : .parent ∉ q.components ∧ tree.target q <+: tree.target p :=
  Path.of_mem_beginnings
    (motive := fun q => .parent ∉ q.components ∧ tree.target q <+: tree.target p) mem
    ⟨inward, List.prefix_refl _⟩ fun _ _ parent ⟨inward, inside⟩ =>
      (target_prefix_of_parent? tree inward parent).imp_right (·.trans inside)

theorem startOf_prefix_target (inward : .parent ∉ p.components) :
    tree.startOf p <+: tree.target p := by
  induction p using Path.parentInduction with
  | ends p none => exact ⟨[], by rw [List.append_nil, target_of_parent?_eq_none none]⟩
  | up p above parent ih =>
    obtain ⟨inward, inside⟩ := target_prefix_of_parent? tree inward parent
    rw [← startOf_of_parent? parent]
    exact (ih inward).trans inside

theorem startOf_of_mem {q : Path} (mem : q ∈ p.beginnings) : tree.startOf q = tree.startOf p :=
  Path.of_mem_beginnings (motive := fun q => tree.startOf q = tree.startOf p) mem rfl
    fun _ _ parent => (startOf_of_parent? parent).trans

/-! ## Looking up names -/

def Opens (tree : Tree) (p : Path) : Prop :=
  tree.isDirectory p = true ∨ p.segments = [""] ∧ tree.kind? tree.working = some .directory

namespace Opens

theorem of_parent? (opens : Opens tree p) (h : p.parent? = some above) : Opens tree above := by
  rcases opens with directory | ⟨empty, -⟩
  · obtain ⟨located, -⟩ := isDirectory_iff.1 directory
    by_cases empty : above.segments = [""]
    · obtain ⟨segs⟩ := above
      obtain rfl : segs = [""] := empty
      have relative : p.isAbsolute = false := (Path.isAbsolute_of_parent? h).symm
      have followed := (locate_eq_ok.1 located).2
      rw [startOf, relative] at followed
      cases segments : p.segments with
      | nil => simp [Path.parent?, Path.parts, segments, Path.trimEnd] at h
      | cons s ss =>
        rw [segments] at followed
        exact .inr ⟨rfl, (follow_cons_eq_ok.1 followed).1⟩
    · obtain ⟨front, behind, some, more, segments, absolute, begins⟩ :=
        (Path.parent?_eq_some h).resolve_left empty
      exact .inl (isDirectory_of_front located some more segments absolute begins empty)
  · obtain ⟨segs⟩ := p
    obtain rfl : segs = [""] := empty
    cases h

theorem of_mem_beginnings (opens : Opens tree p) {q : Path} (mem : q ∈ p.beginnings) :
    Opens tree q :=
  Path.of_mem_beginnings mem opens fun _ _ parent opens => opens.of_parent? parent

theorem follow (opens : Opens tree p) :
    tree.follow (tree.startOf p) p.way = .ok (tree.target p) ∧
      tree.kind? (tree.target p) = some .directory ∧ '\x00' ∉ p.text.toList := by
  rcases opens with directory | ⟨empty, working⟩
  · obtain ⟨located, here⟩ := isDirectory_iff.1 directory
    obtain ⟨checked, followed⟩ := locate_eq_ok.1 located
    exact ⟨follow_way followed, here, (checkPath_eq_ok.1 checked).1⟩
  · obtain ⟨segs⟩ := p
    obtain rfl : segs = [""] := empty
    exact ⟨rfl, working, by decide⟩

end Opens

theorem checkPath_child {name : String} (clean : '\x00' ∉ p.text.toList)
    (own : '\x00' ∉ name.toList) (full : name ≠ "")
    (room : p.text.utf8ByteSize + 1 + name.utf8ByteSize < pathLimit) :
    checkPath (p.child name) = .ok () := by
  have child : p.child name = ⟨p.way ++ [name]⟩ := Path.join_eq (Path.isAbsolute_singleton name)
  have single : (Path.mk [name]).text = name := rfl
  by_cases none : p.way = []
  · rw [child, none, List.nil_append, checkPath_eq_ok, single]
    exact ⟨own, full, by omega⟩
  · obtain ⟨rest, whole⟩ : ∃ rest, p.text = (Path.mk p.way).text ++ rest := by
      rcases p.segments_eq_way with same | slash
      · exact ⟨"", by rw [String.append_empty, ← same]⟩
      · exact Path.exists_text_eq_append none (by simp) slash (.inl rfl)
    rw [whole, String.toList_append, List.mem_append, not_or] at clean
    rw [whole, String.utf8ByteSize_append] at room
    rw [child, checkPath_eq_ok, Path.text_append none (by simp), single]
    refine ⟨?_, fun empty => ?_, ?_⟩
    · simp [clean.1, own]
    · simpa [full] using congrArg String.utf8ByteSize empty
    · simp only [String.utf8ByteSize_append]
      have one : "/".utf8ByteSize = 1 := rfl
      omega

/-- A name behind a path is there if the directory to which the path leads has something of this
name. -/
theorem Opens.exists?_child (opens : Opens tree p) {name : String}
    (down : Path.leadsDown name = true) (own : '\x00' ∉ name.toList)
    (short : name.utf8ByteSize ≤ nameLimit)
    (room : p.text.utf8ByteSize + 1 + name.utf8ByteSize < pathLimit) :
    tree.exists? (p.child name) = true ↔ (tree.kind? (tree.target p ++ [name])).isSome = true := by
  have place := target_child tree p down
  rw [exists?_iff, ← isSome_at?, ← place, Option.isSome_iff_exists]
  constructor
  · rintro ⟨item, found⟩
    exact ⟨item, (find_eq_ok.1 found).2⟩
  · rintro ⟨item, here⟩
    obtain ⟨followed, directory, clean⟩ := opens.follow
    have full : name ≠ "" := by
      rintro rfl
      cases (Path.leadsDown_iff.1 down).1
    refine ⟨item, find_eq_ok.2 ⟨locate_eq_ok.2 ⟨checkPath_child clean own full room, ?_⟩, here⟩⟩
    rw [Path.segments_child, follow_append, startOf, Path.isAbsolute_child, ← startOf, followed]
    have there : (tree.kind? (tree.target p ++ [name])).isSome = true := by
      rw [← isSome_at?, ← place, here]
      rfl
    refine follow_cons_eq_ok.2 ⟨directory, ?_, fun _ _ => ⟨short, there⟩⟩
    rw [walk_name _ down, place]
    rfl

end Tree

end BundlePrep.FileTree
