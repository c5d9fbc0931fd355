import BundlePrep.Proofs.FileTree.History
import BundlePrep.Proofs.FileTree.Proper
import BundlePrep.Proofs.FileTree.Relative

/-!
# Rewriting files in place

A file that can be read can be written: its path ends in a name, and the directories above it are there
already. When some of the files of a tree are rewritten, each of them holds its new content, and all else
is as it was.
-/

set_option autoImplicit false

namespace BundlePrep.FileTree

namespace Path

/-! ## The path above another one -/

theorem exists_of_reverse_trimEnd {rest ss : List String} {last : String}
    (h : (trimEnd rest).reverse = last :: ss) :
    ∃ behind, behind ≠ [] ∧ rest = trimEnd ss.reverse ++ behind := by
  obtain ⟨skipped, whole⟩ := trimEnd_prefix rest
  obtain ⟨skipped', front⟩ := trimEnd_prefix ss.reverse
  rw [← List.reverse_reverse (trimEnd rest), h, List.reverse_cons, ← front] at whole
  exact ⟨skipped' ++ [last] ++ skipped, by simp, by rw [← whole]; simp⟩

theorem parent?_eq_some {p above : Path} (h : p.parent? = some above) :
    above.segments = [""] ∨ ∃ front behind, front ≠ [] ∧ behind ≠ [] ∧
      p.segments = front ++ behind ∧ above.isAbsolute = p.isAbsolute ∧
      (above.segments = front ∨ above.segments = front ++ [""]) := by
  rw [parent?] at h
  rcases p.parts_cases with ⟨rest, some, segments, parts⟩ | ⟨rest, segments, parts⟩ | ⟨parts, single⟩
  all_goals
    rw [parts] at h
    dsimp only at h
    split at h
  next last ss cut =>
    obtain rfl := Option.some.inj h
    obtain ⟨behind, more, whole⟩ := exists_of_reverse_trimEnd cut
    obtain ⟨segs⟩ := p
    obtain rfl : segs = "" :: rest := segments
    refine .inr ⟨"" :: trimEnd ss.reverse, behind, List.cons_ne_nil _ _, more,
      by rw [List.cons_append, ← whole], ?_⟩
    rw [isAbsolute_cons_of_ne_nil some]
    cases trimEnd ss.reverse with
    | nil => exact ⟨rfl, .inr rfl⟩
    | cons t ts => exact ⟨isAbsolute_cons_of_ne_nil (List.cons_ne_nil _ _), .inl rfl⟩
  next => cases h
  next last ss cut =>
    obtain rfl := Option.some.inj h
    obtain ⟨behind, more, whole⟩ := exists_of_reverse_trimEnd cut
    obtain ⟨segs⟩ := p
    obtain rfl : segs = "." :: rest := segments
    refine .inr ⟨"." :: trimEnd ss.reverse, behind, List.cons_ne_nil _ _, more,
      by rw [List.cons_append, ← whole], ?_⟩
    rw [isAbsolute_cons_of_ne (by decide)]
    cases trimEnd ss.reverse with
    | nil => exact ⟨isAbsolute_cons_of_ne (by decide) [], .inl rfl⟩
    | cons t ts => exact ⟨isAbsolute_cons_of_ne (by decide) _, .inl rfl⟩
  next =>
    obtain rfl := Option.some.inj h
    exact .inl rfl
  next last ss cut =>
    obtain rfl := Option.some.inj h
    obtain ⟨behind, more, whole⟩ := exists_of_reverse_trimEnd cut
    cases front : trimEnd ss.reverse with
    | nil => exact .inl rfl
    | cons t ts =>
      rw [front] at whole
      have named : t ≠ "" := fun empty =>
        absurd (single t (ts ++ behind) whole empty) (by simp [more])
      refine .inr ⟨t :: ts, behind, List.cons_ne_nil _ _, more, whole, ?_, .inl rfl⟩
      obtain ⟨segs⟩ := p
      obtain rfl : segs = t :: ts ++ behind := whole
      rw [List.cons_append, isAbsolute_cons_of_ne named]
      exact isAbsolute_cons_of_ne named ts
  next => simp at h

theorem text_append {front behind : List String} (some : front ≠ []) (more : behind ≠ []) :
    (Path.mk (front ++ behind)).text = (Path.mk front).text ++ "/" ++ (Path.mk behind).text :=
  String.intercalate_append_of_ne_nil some more

theorem exists_text_eq_append {p above : Path} {front behind : List String} (some : front ≠ [])
    (more : behind ≠ []) (segments : p.segments = front ++ behind)
    (begins : above.segments = front ∨ above.segments = front ++ [""]) :
    ∃ rest, p.text = above.text ++ rest := by
  obtain ⟨segs⟩ := p
  obtain ⟨segs'⟩ := above
  obtain rfl : segs = front ++ behind := segments
  rcases begins with rfl | rfl
  · exact ⟨_, by rw [text_append some more, String.append_assoc]⟩
  · refine ⟨(Path.mk behind).text, ?_⟩
    rw [text_append some more, text_append some (by simp),
      show (Path.mk [""]).text = "" from rfl, String.append_empty]

theorem text_eq_empty {p : Path} (h : p.text = "") : p.segments = [] ∨ p.segments = [""] := by
  obtain ⟨segments⟩ := p
  rcases segments with - | ⟨s, - | ⟨t, ts⟩⟩
  · exact .inl rfl
  · exact .inr (congrArg (fun s => [s]) h)
  · have slash := @text_append [s] (t :: ts) (by simp) (by simp)
    rw [List.singleton_append, h] at slash
    have size := congrArg String.utf8ByteSize slash
    rw [String.utf8ByteSize_append, String.utf8ByteSize_append] at size
    have one : "/".utf8ByteSize = 1 := rfl
    have zero : "".utf8ByteSize = 0 := rfl
    omega

end Path

namespace Tree

theorem checkPath_eq_ok {p : Path} : checkPath p = .ok () ↔
    '\x00' ∉ p.text.toList ∧ p.text ≠ "" ∧ p.text.utf8ByteSize < pathLimit := by
  rw [checkPath]
  split_ifs <;> simp_all

theorem checkPath_front {p above : Path} {front behind : List String} (some : front ≠ [])
    (more : behind ≠ []) (segments : p.segments = front ++ behind)
    (begins : above.segments = front ∨ above.segments = front ++ [""])
    (full : above.segments ≠ [""]) (checked : checkPath p = .ok ()) : checkPath above = .ok () := by
  obtain ⟨clean, -, short⟩ := checkPath_eq_ok.1 checked
  obtain ⟨rest, whole⟩ := Path.exists_text_eq_append some more segments begins
  rw [whole] at clean short
  refine checkPath_eq_ok.2 ⟨?_, fun empty => ?_, ?_⟩
  · simp only [String.toList_append, List.mem_append, not_or] at clean
    exact clean.1
  · rcases Path.text_eq_empty empty with none | slash
    · rcases begins with same | same
      · exact some (same.symm.trans none)
      · simp [same] at none
    · exact full slash
  · rw [String.utf8ByteSize_append] at short
    omega

theorem exists_way {tree : Tree} {p : Path} {content : ByteArray}
    (h : tree.read p = .ok content) : ∃ way above last, p.segments = way ++ [last] ∧
      Path.leadsDown last = true ∧ last.utf8ByteSize ≤ nameLimit ∧
      tree.follow (tree.startOf p) way = .ok above ∧ tree.kind? above = some .directory ∧
      tree.target p = above ++ [last] := by
  obtain ⟨located, file⟩ := read_eq_ok.1 h
  obtain ⟨checked, followed⟩ := locate_eq_ok.1 located
  rcases List.eq_nil_or_concat p.segments with none | ⟨way, last, segments⟩
  · have empty : p.text = "" := by
      rw [Path.text, none]
      rfl
    simp [checkPath, empty] at checked
  rw [List.concat_eq_append] at segments
  rw [segments, follow_append] at followed
  cases steps : tree.follow (tree.startOf p) way with
  | error e => rw [steps] at followed; cases followed
  | ok above =>
    rw [steps] at followed
    obtain ⟨directory, ends, named⟩ := follow_cons_eq_ok.1 followed
    have place := (follow_eq_walk ends).symm
    simp only [walk] at place
    refine ⟨way, above, last, segments, ?_⟩
    by_cases passed : Path.passed last = true
    · rw [if_pos passed] at place
      rw [← place, directory] at file
      cases file
    by_cases parent : last = ".."
    · rw [if_neg passed, if_pos parent] at place
      have up : tree.kind? above.dropLast = some .directory := by
        rcases List.eq_nil_or_concat above with rfl | ⟨front, name, rfl⟩
        · exact directory
        · rw [List.concat_eq_append] at directory ⊢
          rw [List.dropLast_concat]
          exact kind?_above (by rw [directory]; rfl)
      rw [← place, up] at file
      cases file
    rw [if_neg passed, if_neg parent] at place
    obtain ⟨short, -⟩ := named (by simpa using passed) parent
    exact ⟨Path.leadsDown_iff.2 ⟨by simpa using passed, parent⟩, short, steps, directory,
      place.symm⟩

def rewrite (tree : Tree) (p : Path) (content : ByteArray) : Tree :=
  tree.setAt (tree.target p) (.file content)

theorem write_of_read {tree : Tree} {p : Path} {old : ByteArray} (h : tree.read p = .ok old)
    (content : ByteArray) : tree.write p content = .ok (tree.rewrite p content) := by
  obtain ⟨way, above, last, segments, down, short, followed, directory, place⟩ := exists_way h
  obtain ⟨located, file⟩ := read_eq_ok.1 h
  obtain ⟨checked, -⟩ := locate_eq_ok.1 located
  obtain ⟨named, parent⟩ := Path.leadsDown_iff.1 down
  have full : last ≠ "" := by
    rintro rfl
    cases named
  have dot : last ≠ "." := by
    rintro rfl
    cases named
  have step : tree.lastStep? p = .ok (some (above, last)) := by
    rw [lastStep?, checked, segments, List.reverse_append, List.reverse_singleton,
      List.singleton_append, List.dropWhile_cons_of_neg (by simpa using full)]
    simp only [List.reverse_reverse, bind, Except.bind, followed,
      isDirectoryAt_iff.2 directory, Nat.not_lt.2 short]
    rfl
  have free : tree.isDirectoryAt (above ++ [last]) = false := by
    rw [← Bool.not_eq_true, isDirectoryAt_iff, ← place, file]
    simp
  rw [write, step]
  simp only [bind, Except.bind, dot, parent, segments, List.getLast?_concat, free]
  rw [rewrite, place]
  simp [full]
  rfl

theorem kind?_rewrite {tree : Tree} {p : Path} {old : ByteArray} (h : tree.read p = .ok old)
    (content : ByteArray) (location : Location) : (tree.rewrite p content).kind? location =
      if location = tree.target p then some (.file content) else tree.kind? location := by
  obtain ⟨way, above, last, -, -, -, -, directory, place⟩ := exists_way h
  have file := (read_eq_ok.1 h).2
  rw [rewrite, place, kind?_setAt directory (by rw [← place, file]; simp) (Item.leaf_file content)]
  rfl

/-! ## Directories that are there -/

theorem isDirectory_iff {tree : Tree} {p : Path} : tree.isDirectory p = true ↔
    tree.locate p = .ok (tree.target p) ∧ tree.kind? (tree.target p) = some .directory := by
  rw [isDirectory, ← isDirectoryAt_iff, isDirectoryAt]
  constructor
  · intro h
    cases found : tree.find p with
    | error e => rw [found] at h; cases h
    | ok item =>
      rw [found] at h
      obtain ⟨located, here⟩ := find_eq_ok.1 found
      exact ⟨located, by rw [here]; exact h⟩
  · rintro ⟨located, here⟩
    cases own : tree.at? (tree.target p) with
    | none => rw [own] at here; cases here
    | some item =>
      rw [own] at here
      rw [find_eq_ok.2 ⟨located, own⟩]
      exact here

theorem isDirectory_of_front {tree : Tree} {p above : Path} {place : Location}
    {front behind : List String} (h : tree.locate p = .ok place) (some : front ≠ [])
    (more : behind ≠ []) (segments : p.segments = front ++ behind)
    (absolute : above.isAbsolute = p.isAbsolute)
    (begins : above.segments = front ∨ above.segments = front ++ [""])
    (full : above.segments ≠ [""]) : tree.isDirectory above = true := by
  obtain ⟨checked, followed⟩ := locate_eq_ok.1 h
  obtain ⟨s, ss, rfl⟩ := List.exists_cons_of_ne_nil more
  rw [segments, follow_append] at followed
  cases steps : tree.follow (tree.startOf p) front with
  | error e => rw [steps] at followed; cases followed
  | ok place =>
    rw [steps] at followed
    obtain ⟨directory, -, -⟩ := follow_cons_eq_ok.1 followed
    have start : tree.startOf above = tree.startOf p := by rw [startOf, startOf, absolute]
    have ends : tree.locate above = .ok place := by
      refine locate_eq_ok.2 ⟨checkPath_front some more segments begins full checked, ?_⟩
      rw [start]
      rcases begins with same | same
      · rw [same, steps]
      · rw [same, follow_append, steps]
        exact follow_cons_eq_ok.2 ⟨directory, rfl, fun named => by cases named⟩
    obtain rfl := locate_eq_target ends
    exact isDirectory_iff.2 ⟨ends, directory⟩

theorem isDirectory_parent {tree : Tree} {p above : Path} {content : ByteArray}
    (h : tree.read p = .ok content) (parent : p.parent? = some above) :
    above.segments = [""] ∨ tree.isDirectory above = true := by
  by_cases full : above.segments = [""]
  · exact .inl full
  · obtain ⟨front, behind, some, more, segments, absolute, begins⟩ :=
      (Path.parent?_eq_some parent).resolve_left full
    exact .inr (isDirectory_of_front (read_eq_ok.1 h).1 some more segments absolute begins full)

theorem isDirectory_of_child {tree : Tree} {base : Path} {name : String} {content : ByteArray}
    (h : tree.read (base.child name) = .ok content) (full : base.text ≠ "") :
    tree.isDirectory base = true := by
  have some : base.way ≠ [] := by
    intro none
    rcases base.segments_eq_way with same | same <;> rw [none] at same <;>
      exact full (by rw [Path.text, same]; rfl)
  have empty : base.segments ≠ [""] := fun same => full (by rw [Path.text, same]; rfl)
  exact isDirectory_of_front (read_eq_ok.1 h).1 some (List.cons_ne_nil name [])
    (Path.segments_child base name) (Path.isAbsolute_child base name).symm base.segments_eq_way empty

theorem lastStep?_of_isDirectory {tree : Tree} {p : Path} (h : tree.isDirectory p = true) :
    tree.lastStep? p = .ok none ∨ ∃ above last, tree.lastStep? p = .ok (some (above, last)) ∧
      (last = "." ∨ last = ".." ∨ (tree.at? (above ++ [last])).isSome = true) := by
  obtain ⟨located, -⟩ := isDirectory_iff.1 h
  obtain ⟨checked, followed⟩ := locate_eq_ok.1 located
  rw [lastStep?, checked]
  simp only [bind, Except.bind]
  cases cut : p.segments.reverse.dropWhile (fun s => decide (s = "")) with
  | nil => exact .inl rfl
  | cons last directory =>
    obtain ⟨full, slashes, segments, -⟩ := segments_of_dropWhile cut
    rw [segments, follow_append] at followed
    cases steps : tree.follow (tree.startOf p) directory.reverse with
    | error e => rw [steps] at followed; cases followed
    | ok above =>
      rw [steps] at followed
      obtain ⟨there, -, named⟩ := follow_cons_eq_ok.1 followed
      obtain ⟨short, found⟩ : last.utf8ByteSize ≤ nameLimit ∧
          (last = "." ∨ last = ".." ∨ (tree.at? (above ++ [last])).isSome = true) := by
        by_cases dot : last = "."
        · exact ⟨by rw [dot]; decide, .inl dot⟩
        by_cases parent : last = ".."
        · exact ⟨by rw [parent]; decide, .inr (.inl parent)⟩
        obtain ⟨short, found⟩ := named (by simp [Path.passed, full, dot]) parent
        exact ⟨short, .inr (.inr (by rw [isSome_at?, found]))⟩
      refine .inr ⟨above, last, ?_, found⟩
      simp only [steps, isDirectoryAt_iff.2 there, Bool.not_true, Bool.false_eq_true, if_false,
        if_neg (Nat.not_lt.2 short)]
      rfl

theorem makeDirectory_of_isDirectory {tree : Tree} {p : Path} (h : tree.isDirectory p = true) :
    tree.makeDirectory p = .error .exists := by
  rw [makeDirectory]
  rcases lastStep?_of_isDirectory h with step | ⟨above, last, step, found⟩
  · rw [step]
    rfl
  · rw [step]
    simp only [bind, Except.bind]
    rw [if_pos (by simpa [or_assoc] using found)]

theorem makeDirectories_of_isDirectory {tree : Tree} {p : Path} (h : tree.isDirectory p = true) :
    tree.makeDirectories p = (.ok (), tree) := by
  have known : ancestors p = [] ∨ ∃ more, ancestors p = p :: more := by
    rw [ancestors]
    cases p.segments.length with
    | zero => exact .inl rfl
    | succ n =>
      rw [ancestors.go]
      cases p.parent? with
      | none => exact .inl rfl
      | some above => exact .inr ⟨_, rfl⟩
  rcases known with none | ⟨more, some⟩
  · rw [makeDirectories, none]
    rfl
  · rw [makeDirectories, some, makeDirectories.climb, makeDirectory_of_isDirectory h]
    simp [h, makeDirectories.descend]

theorem makeDirectories_parent {tree : Tree} {p above : Path} {content : ByteArray}
    (h : tree.read p = .ok content) (parent : p.parent? = some above) :
    tree.makeDirectories above = (.ok (), tree) := by
  rcases isDirectory_parent h parent with empty | directory
  · obtain ⟨segments⟩ := above
    obtain rfl : segments = [""] := empty
    rfl
  · exact makeDirectories_of_isDirectory directory

/-! ## Several files -/

structure Rewritten (put : List (Location × ByteArray)) (before after : Tree) : Prop where
  working : after.working = before.working
  old : ∀ file ∈ put, ∃ content, before.kind? file.1 = some (.file content)
  kind? : ∀ location, after.kind? location =
    ((put.lookup location).map Kind.file).or (before.kind? location)

namespace Rewritten

variable {put : List (Location × ByteArray)} {before after : Tree}

theorem refl (tree : Tree) : Rewritten [] tree tree where
  working := rfl
  old := by simp
  kind? _ := rfl

theorem grows (h : Rewritten put before after) : Grows before after where
  working := h.working
  directory location found := by
    rw [h.kind?]
    cases own : put.lookup location with
    | none => exact found
    | some content =>
      obtain ⟨front, back, rfl, -⟩ := List.lookup_eq_some_iff.1 own
      obtain ⟨old, file⟩ := h.old (location, content) (by simp)
      rw [file] at found
      cases found
  file location content found := by
    rw [h.kind?]
    cases own : put.lookup location with
    | none => exact ⟨content, found⟩
    | some content' => exact ⟨content', rfl⟩

theorem rewrite (h : Rewritten put before after) {p : Path} {old : ByteArray}
    (read : after.read p = .ok old) (content : ByteArray) :
    Rewritten ((before.target p, content) :: put) before (after.rewrite p content) where
  working := h.working
  old := by
    refine List.forall_mem_cons.2 ⟨?_, h.old⟩
    have file := (read_eq_ok.1 read).2
    rw [h.grows.target, h.kind?] at file
    cases own : put.lookup (before.target p) with
    | none => exact ⟨old, by simpa [own] using file⟩
    | some content' =>
      obtain ⟨front, back, rfl, -⟩ := List.lookup_eq_some_iff.1 own
      exact h.old (before.target p, content') (by simp)
  kind? location := by
    rw [kind?_rewrite read, h.kind?, h.grows.target, Item.lookup_cons_eq]
    split <;> rfl

theorem kind?_of_not_mem (h : Rewritten put before after) {location : Location}
    (apart : ∀ file ∈ put, file.1 ≠ location) : after.kind? location = before.kind? location := by
  have none : put.lookup location = none :=
    List.lookup_eq_none_iff.2 fun file mem => bne_iff_ne.2 (apart file mem).symm
  rw [h.kind?, none]
  rfl

theorem kind?_of_mem (h : Rewritten put before after) {location : Location} {content : ByteArray}
    (mem : (location, content) ∈ put) (once : ∀ file ∈ put, file.1 = location → file.2 = content) :
    after.kind? location = some (.file content) := by
  cases own : put.lookup location with
  | none => exact absurd rfl (bne_iff_ne.1 (List.lookup_eq_none_iff.1 own _ mem))
  | some content' =>
    obtain ⟨front, back, rfl, -⟩ := List.lookup_eq_some_iff.1 own
    obtain rfl : content' = content := once (location, content') (by simp) rfl
    rw [h.kind?, own]
    rfl

end Rewritten

end Tree

end BundlePrep.FileTree
