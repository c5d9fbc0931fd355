import BundlePrep.Proofs.Glob.Directories
import BundlePrep.Proofs.Job.Scanning
import BundlePrep.Proofs.Message.Cut

/-!
# Scans of directories that stand elsewhere

Where a scan starts and what it leaves out by plain paths is the same behind a directory wherever it
stands. What it leaves out by patterns is not: these are matched against the whole path.
-/

set_option autoImplicit false

namespace BundlePrep.Job

open BundlePrep.FileTree BundlePrep.Glob

/-- An include that does not lead out of the directory to which it belongs. -/
structure StaysInside (text : String) : Prop where
  relative : (Path.ofText text).isAbsolute = false
  inward : ".." ∉ (Path.ofText text).segments
  matched : hasWildcard text = true → ∀ ps, patternsOf? text = some ps →
    ∀ p ∈ ps, ".." ∉ specialNames p

/-- The segments that includes may add to a path. -/
def segmentCount : List String → Nat
  | [] => 0
  | text :: includes => (Path.ofText text).segments.length + segmentCount includes

/-- A directory that holds an item, and whose path includes can follow. -/
structure Fits (item : Item) (includes : List String) (tree : Tree) (base : Path) : Prop where
  houses : Houses item (segmentCount includes) tree base
  plain : ∀ text ∈ includes, hasWildcard text = true → ∀ c ∈ base.text.toList, IsPlainChar c

section

variable {item : Item} {includes : List String} {text : String}

theorem length_le_segmentCount (h : text ∈ includes) :
    (Path.ofText text).segments.length ≤ segmentCount includes := by
  induction includes with
  | nil => cases h
  | cons first includes ih =>
    rw [segmentCount]
    rcases List.mem_cons.1 h with rfl | mem
    · exact Nat.le_add_right ..
    · exact (ih mem).trans (Nat.le_add_left ..)

theorem StaysInside.tame (h : StaysInside text) (wild : hasWildcard text = true) {ps : List Pattern}
    (read : patternsOf? text = some ps) :
    ps.length ≤ (Path.ofText text).segments.length ∧ ∀ p ∈ ps, Tame p := by
  have specials := h.matched wild ps read
  rw [patternsOf?_eq h.relative] at read
  split_ifs at read
  have each := Message.mapM_eq_ok (toOption_eq_some.1 read)
  have front := Path.way_prefix (Path.ofText text)
  refine ⟨each.length_eq ▸ front.length_le, fun p mem => ⟨specials p mem, fun name literal => ?_⟩⟩
  obtain ⟨i, rfl⟩ := List.get_of_mem mem
  have bound : i < (segmentsOf (Path.ofText text).segments).length := by
    rw [each.length_eq]
    exact i.2
  have segment : (segmentsOf (Path.ofText text).segments).get ⟨i, bound⟩ ∈
      (Path.ofText text).segments := front.subset (List.get_mem _ _)
  rw [(eq_of_literal? (each.get bound i.2) literal).1]
  exact ⟨Path.not_mem_of_mem_ofText segment, fun up => h.inward (up ▸ segment)⟩

/-! ## Where a scan starts -/

theorem uniform_rootsOf (proper : item.isProper = true) (inside : StaysInside text)
    (mem : text ∈ includes) : Uniform (Fits item includes) (segmentCount includes) fun tree base =>
      (rootsOf tree base text).1 := by
  have length := length_le_segmentCount mem
  by_cases wild : hasWildcard text = true
  · have found : Uniform (Fits item includes) (segmentCount includes) fun tree base =>
        ((directories tree (base.join (.ofText text)).text).toOption).getD [] := by
      cases read : patternsOf? text with
      | none =>
        refine Uniform.nil.congr fun tree base fit => ?_
        rw [directories_join fit.houses.named fit.houses.found (fit.plain text mem wild)
          inside.relative wild, read]
        rfl
      | some ps =>
        obtain ⟨few, tame⟩ := inside.tame wild read
        have below := @settles item (segmentCount includes) proper (pathLimit + ps.length) ps [] 0
          tame (.nil 0) (by omega)
        have chosen := @Uniform.filter _ _ _ Tree.isDirectory
          (fun inner => (item.find? inner).any Item.isDirectory) below
          fun tree base inner houses inside => by rw [Tree.isDirectory, houses.find inside]
        refine (chosen.of_imp fun tree base fit => fit.houses).congr fun tree base fit => ?_
        rw [directories_join fit.houses.named fit.houses.found (fit.plain text mem wild)
          inside.relative wild, read]
        rfl
    refine found.congr fun tree base fit => ?_
    rw [rootsOf, if_pos wild]
    cases directories tree (base.join (.ofText text)).text <;> rfl
  · have within : Path.Inward (segmentCount includes) (Path.ofText text).segments :=
      ⟨inside.inward, (List.length_filter_le ..).trans length⟩
    by_cases there : (item.find? (Path.ofText text).segments).isSome = true
    · refine (Uniform.single within).congr fun tree base fit => ?_
      rw [rootsOf, if_neg wild, Path.join_eq inside.relative, ← FileTree.Path.extend, Tree.exists?,
        fit.houses.find within, if_pos there]
    · refine Uniform.nil.congr fun tree base fit => ?_
      rw [rootsOf, if_neg wild, Path.join_eq inside.relative, ← FileTree.Path.extend, Tree.exists?,
        fit.houses.find within, if_neg there]

theorem uniform_roots (proper : item.isProper = true) (inside : ∀ text ∈ includes, StaysInside text)
    (some : includes ≠ []) : Uniform (Fits item includes) (segmentCount includes) fun tree base =>
      (roots tree base includes).1 := by
  refine (Uniform.flatMap fun text mem => uniform_rootsOf proper (inside text mem) mem).congr
    fun tree base fit => ?_
  rw [roots, if_neg (by simpa using some)]
  exact List.flatMap_map ..

/-! ## What a scan finds there -/

def foundFiles (tree : Tree) (base : Path) (includes : List String) : List Path :=
  (roots tree base includes).1.flatMap fun root => (filesBelow tree root).toOption.getD []

theorem exists_foundFiles (proper : item.isProper = true) (directory : item.isDirectory = true)
    (inside : ∀ text ∈ includes, StaysInside text) : ∃ inners : List (List String),
      (∀ inner ∈ inners, ∃ content, item.kind? (Path.names inner) = some (.file content)) ∧
      ∀ tree base, Fits item includes tree base →
        foundFiles tree base includes = inners.map base.extend := by
  have below (tree : Tree) (root : Path) : (filesBelow tree root).toOption.getD [] =
      (tree.find root).toOption.elim [] fun found => found.files root := by
    rw [filesBelow]
    cases tree.find root <;> rfl
  by_cases whole : includes = []
  · subst whole
    refine ⟨(item.files ⟨[]⟩).map Path.segments, fun inner mem => ?_, fun tree base fit => ?_⟩
    · obtain ⟨f, found, rfl⟩ := List.mem_map.1 mem
      exact Item.exists_kind?_of_mem_files proper List.not_mem_nil rfl found
    · show [base].flatMap (fun root => (filesBelow tree root).toOption.getD []) = _
      rw [List.flatMap_singleton, below, fit.houses.found, List.map_map]
      exact Item.files_of_isDirectory fit.houses.named directory
  · obtain ⟨starts, within, same⟩ := uniform_roots proper inside whole
    refine ⟨starts.flatMap fun start => (item.find? start).elim [] fun found =>
      (found.files ⟨start⟩).map Path.segments, fun inner mem => ?_, fun tree base fit => ?_⟩
    · obtain ⟨start, started, mem⟩ := List.mem_flatMap.1 mem
      cases found : item.find? start with
      | none => rw [found] at mem; cases mem
      | some below =>
        rw [found] at mem
        obtain ⟨f, listed, rfl⟩ := List.mem_map.1 mem
        exact Item.exists_kind?_of_mem_files proper (within start started).inward found listed
    · have started : (roots tree base includes).1 = starts.map base.extend := same tree base fit
      rw [foundFiles, started, List.flatMap_map, List.map_flatMap]
      refine List.flatMap_congr fun start started => ?_
      rw [below, fit.houses.find (within start started)]
      cases item.find? start with
      | none => rfl
      | some found =>
        show found.files (base.extend start) = _
        rw [Item.files_extend fit.houses.named, Option.elim_some, List.map_map]
        rfl

/-! ## What a scan leaves out -/

variable {ignores extensions : List String}

/-- The patterns for files that are left out. -/
def ignoredPatterns (ignores : List String) : List Pattern :=
  ignores.filterMap fun text => if hasWildcard text then (Pattern.parse text).toOption else none

/-- Whether a file is left out by a pattern. -/
def leftOut (ignores : List String) (file : Path) : Bool :=
  (ignoredPatterns ignores).any (·.accepts file.text)

/-- The plain paths of what is left out. -/
def ignoredPaths (ignores : List String) : List Path :=
  (ignores.filter (!hasWildcard ·)).map Path.ofText

theorem ofTexts_eq (base : Path) (ignores : List String) :
    (Ignores.ofTexts base ignores).1 =
      ⟨(ignoredPaths ignores).map base.join, ignoredPatterns ignores⟩ := by
  induction ignores with
  | nil => rfl
  | cons text ignores ih =>
    rw [Ignores.ofTexts, List.foldr_cons, ← Ignores.ofTexts]
    rcases others : Ignores.ofTexts base ignores with ⟨known, warnings⟩
    rw [others] at ih
    obtain rfl : known = _ := ih
    by_cases wild : hasWildcard text = true
    · cases read : Pattern.parse text with
      | ok p => simp [Ignores.add, ignoredPaths, ignoredPatterns, wild, read, Except.toOption]
      | error e => simp [Ignores.add, ignoredPaths, ignoredPatterns, wild, read, Except.toOption]
    · simp [Ignores.add, ignoredPaths, ignoredPatterns, wild]

def wanted (ignores extensions inner : List String) : Bool :=
  !(ignoredPaths ignores).any (fun p => (Path.names p.segments).isPrefixOf (Path.names inner)) &&
    hasExtension extensions ⟨Path.names inner⟩

theorem componentOf_injective : Function.Injective Path.componentOf := by
  intro s t same
  unfold Path.componentOf at same
  split_ifs at same with up up'
  · rw [up, up']
  · exact Component.normal.inj same

theorem isPrefixOf_components {base : Path} (named : base.Named) (inner outer : List String) :
    (base.extend outer).components.isPrefixOf (base.extend inner).components =
      (Path.names outer).isPrefixOf (Path.names inner) := by
  rw [Path.components_extend named, Path.components_extend named, Bool.eq_iff_iff,
    List.isPrefixOf_iff_prefix, List.isPrefixOf_iff_prefix, List.prefix_append_right_inj]
  exact List.prefix_map_iff_of_injective componentOf_injective

theorem hasExtension_extend {base : Path} (named : base.Named) {inner : List String}
    (some : Path.names inner ≠ []) : hasExtension extensions (base.extend inner) =
      hasExtension extensions ⟨Path.names inner⟩ := by
  have plain : (⟨Path.names inner⟩ : Path).Plain := by
    obtain ⟨n, ns, whole⟩ := List.exists_cons_of_ne_nil some
    have counts : n ∈ Path.names inner := by
      rw [whole]
      exact List.mem_cons_self ..
    exact .inr ⟨n, ns, whole, by simpa using (List.mem_filter.1 counts).2⟩
  have twice : Path.names (Path.names inner) = Path.names inner :=
    List.filter_eq_self.2 fun n mem => (List.mem_filter.1 mem).2
  rw [hasExtension, hasExtension, Path.extension?, Path.extension?, Path.fileName?, Path.fileName?,
    Path.components_extend named, plain.components, twice,
    List.getLast?_append_of_ne_nil _ (by simpa using some)]

theorem contains_extend {base : Path} (named : base.Named)
    (relative : ∀ p ∈ ignoredPaths ignores, p.isAbsolute = false) (inner : List String) :
    (Ignores.ofTexts base ignores).1.contains (base.extend inner) =
      ((ignoredPaths ignores).any
          (fun p => (Path.names p.segments).isPrefixOf (Path.names inner)) ||
        leftOut ignores (base.extend inner)) := by
  rw [ofTexts_eq, Ignores.contains, leftOut, List.any_map]
  congr 1
  rw [Bool.eq_iff_iff, List.any_eq_true, List.any_eq_true]
  refine exists_congr fun p => and_congr_right fun mem => ?_
  rw [Function.comp_apply, Path.join_eq (relative p mem), ← isPrefixOf_components named]
  rfl

theorem files_scan_eq (tree : Tree) (base : Path) (includes ignores extensions : List String) :
    (scan tree base includes ignores extensions).files =
      orderPaths ((foundFiles tree base includes).filter fun file =>
        !(Ignores.ofTexts base ignores).1.contains file && hasExtension extensions file) := by
  have walks : foundFiles tree base includes =
      ((roots tree base includes).1.map (filesBelow tree)).flatMap (·.toOption.getD []) := by
    rw [foundFiles, List.flatMap_map]
  rw [walks]
  rfl

theorem exists_files_scan (proper : item.isProper = true) (directory : item.isDirectory = true)
    (inside : ∀ text ∈ includes, StaysInside text)
    (relative : ∀ p ∈ ignoredPaths ignores, p.isAbsolute = false) :
    ∃ inners : List (List String),
      (∀ inner ∈ inners, ∃ content, item.kind? (Path.names inner) = some (.file content)) ∧
      ∀ tree base, Fits item includes tree base →
        (scan tree base includes ignores extensions).files =
          orderPaths ((inners.filter fun inner => !leftOut ignores (base.extend inner)).map
            base.extend) := by
  obtain ⟨inners, files, same⟩ := exists_foundFiles proper directory inside
  refine ⟨inners.filter (wanted ignores extensions), fun inner mem =>
    files inner (List.mem_filter.1 mem).1, fun tree base fit => ?_⟩
  rw [files_scan_eq, same tree base fit, List.filter_map, List.filter_filter]
  refine congrArg (fun kept : List (List String) => orderPaths (kept.map base.extend)) ?_
  refine List.filter_congr fun inner mem => ?_
  have some : Path.names inner ≠ [] := by
    intro none
    obtain ⟨content, file⟩ := files inner mem
    rw [none, Item.kind?_nil] at file
    cases item with
    | file content => cases directory
    | directory entries => cases file
  rw [Function.comp_apply, contains_extend fit.houses.named relative,
    hasExtension_extend fit.houses.named some, wanted, Bool.not_or, Bool.and_right_comm,
    Bool.and_comm (!leftOut _ _)]

/-! ## What a scan selects -/

/-- The components of the files of a scan behind its directory. -/
def selection (tree : Tree) (base : Path) (includes ignores extensions : List String) :
    List (Option (List Component)) :=
  (scan tree base includes ignores extensions).files.map fun file =>
    (file.below? base).map Path.components

theorem below?_extend {base : Path} (named : base.Named) (inner : List String) :
    ((base.extend inner).below? base).map Path.components =
      some ((Path.names inner).map Path.componentOf) := by
  have begins : (base.extend inner).startsWith base = true := by
    rw [Path.startsWith, Path.components_extend named, List.isPrefixOf_iff_prefix]
    exact List.prefix_append ..
  cases behind : (base.extend inner).below? base with
  | none =>
    simp only [Path.below?, begins, Bool.not_true, Bool.false_eq_true, if_false] at behind
    split at behind <;> cases behind
  | some q =>
    have whole := (Path.plain_below named.components_ne_nil behind).2
    rw [Path.components_extend named, List.append_cancel_left_eq] at whole
    rw [Option.map_some, whole]

theorem compareLists_append (front as bs : List Component) :
    Path.compareLists (front ++ as) (front ++ bs) = Path.compareLists as bs := by
  induction front with
  | nil => rfl
  | cons c front ih =>
    have own : Path.compareComponents c c = .eq := Std.ReflCmp.compare_self
    rw [List.cons_append, List.cons_append, Path.compareLists, own, Ordering.eq_then, ih]

theorem compare_extend {base : Path} (named : base.Named) (inner other : List String) :
    (base.extend inner).compare (base.extend other) =
      Path.compareLists ((Path.names inner).map Path.componentOf)
        ((Path.names other).map Path.componentOf) := by
  rw [Path.compare, Path.components_extend named, Path.components_extend named, compareLists_append]

theorem exists_selected {base : Path} (named : base.Named) (inners : List (List String)) :
    ∃ selected : List (List String),
      ((orderPaths (inners.map base.extend)).map fun file =>
        (file.below? base).map Path.components) =
          selected.map (fun ns => some (ns.map Path.componentOf)) ∧
      selected.Pairwise (fun ns ms =>
        Path.compareLists (ns.map Path.componentOf) (ms.map Path.componentOf) = .lt) ∧
      ∀ ns, ns ∈ selected ↔ ∃ inner ∈ inners, Path.names inner = ns := by
  have behind (inner : List String) : (base.extend inner).segments.drop base.way.length = inner :=
    List.drop_left
  have known {file : Path} (mem : file ∈ orderPaths (inners.map base.extend)) :
      ∃ inner ∈ inners, base.extend inner = file := List.mem_map.1 (mem_of_mem_orderPaths mem)
  refine ⟨(orderPaths (inners.map base.extend)).map fun file =>
    Path.names (file.segments.drop base.way.length), ?_, ?_, fun ns => ?_⟩
  · rw [List.map_map]
    refine List.map_congr_left fun file mem => ?_
    obtain ⟨inner, -, rfl⟩ := known mem
    rw [below?_extend named, Function.comp_apply, behind]
  · refine List.pairwise_map.2 ((pairwise_orderPaths _).imp_of_mem fun memP memQ before => ?_)
    obtain ⟨inner, -, rfl⟩ := known memP
    obtain ⟨other, -, rfl⟩ := known memQ
    rwa [behind, behind, ← compare_extend named]
  · rw [List.mem_map]
    constructor
    · rintro ⟨file, mem, rfl⟩
      obtain ⟨inner, listed, rfl⟩ := known mem
      exact ⟨inner, listed, by rw [behind]⟩
    · rintro ⟨inner, listed, rfl⟩
      obtain ⟨file, mem, same⟩ := exists_mem_orderPaths (List.mem_map_of_mem listed)
      obtain ⟨other, -, rfl⟩ := known mem
      rw [Path.components_extend named, Path.components_extend named, List.append_cancel_left_eq,
        List.map_inj_right fun _ _ same => componentOf_injective same] at same
      exact ⟨_, mem, by rw [behind, same]⟩

theorem eq_of_mem_iff {α : Type} {compare : α → α → Ordering} [Std.TransCmp compare]
    {as bs : List α} (sortedA : as.Pairwise fun a b => compare a b = .lt)
    (sortedB : bs.Pairwise fun a b => compare a b = .lt) (same : ∀ a, a ∈ as ↔ a ∈ bs) :
    as = bs := by
  have distinct {as : List α} (sorted : as.Pairwise fun a b => compare a b = .lt) : as.Nodup :=
    sorted.imp fun {a b} before same => by
      rw [same, @Std.ReflCmp.compare_self _ compare] at before
      cases before
  refine List.Perm.eq_of_pairwise (fun a b _ _ before after => ?_) sortedA sortedB
    ((List.perm_ext_iff_of_nodup (distinct sortedA) (distinct sortedB)).2 same)
  rw [@Std.OrientedCmp.eq_swap _ compare, after] at before
  cases before

theorem eq_iff_of_sorted {selected selected' : List (List String)}
    (sorted : selected.Pairwise fun ns ms =>
      Path.compareLists (ns.map Path.componentOf) (ms.map Path.componentOf) = .lt)
    (sorted' : selected'.Pairwise fun ns ms =>
      Path.compareLists (ns.map Path.componentOf) (ms.map Path.componentOf) = .lt) :
    selected = selected' ↔ ∀ ns, ns ∈ selected ↔ ns ∈ selected' := by
  constructor
  · rintro rfl ns
    rfl
  · intro same
    have equal := eq_of_mem_iff (List.pairwise_map.2 sorted) (List.pairwise_map.2 sorted')
      fun cs => by simp only [List.mem_map, same]
    exact (List.map_inj_right fun _ _ => (List.map_inj_right fun _ _ =>
      (componentOf_injective ·)).1).1 equal

theorem leftOut_of_plain (plain : ∀ text ∈ ignores, hasWildcard text = false) (file : Path) :
    leftOut ignores file = false := by
  have none : ignoredPatterns ignores = [] := List.filterMap_eq_nil_iff.2 fun text mem => by
    rw [plain text mem]
    rfl
  rw [leftOut, none]
  rfl

/-- Behind all directories that hold an item the same includes lead to the same files of it. Two of
these scans select the same files if and only if their ignore patterns, which are matched against
the whole path, leave out the same ones. Without such patterns they do. -/
theorem selection_eq_iff_of_fits (proper : item.isProper = true)
    (directory : item.isDirectory = true) (inside : ∀ text ∈ includes, StaysInside text)
    (relative : ∀ p ∈ ignoredPaths ignores, p.isAbsolute = false) :
    ∃ inners : List (List String),
      (∀ inner ∈ inners, ∃ content, item.kind? (Path.names inner) = some (.file content)) ∧
      (∀ tree base, Fits item includes tree base →
        (scan tree base includes ignores extensions).files =
          orderPaths ((inners.filter fun inner => !leftOut ignores (base.extend inner)).map
            base.extend)) ∧
      ∀ tree base tree' base', Fits item includes tree base → Fits item includes tree' base' →
        (selection tree base includes ignores extensions =
            selection tree' base' includes ignores extensions ↔
          ∀ ns, (∃ inner ∈ inners, Path.names inner = ns ∧
              leftOut ignores (base.extend inner) = false) ↔
            ∃ inner ∈ inners, Path.names inner = ns ∧
              leftOut ignores (base'.extend inner) = false) ∧
        ((∀ text ∈ ignores, hasWildcard text = false) →
          selection tree base includes ignores extensions =
            selection tree' base' includes ignores extensions) := by
  obtain ⟨inners, files, same⟩ := exists_files_scan proper directory inside relative
  refine ⟨inners, files, same, fun tree base tree' base' fit fit' => ?_⟩
  obtain ⟨selected, equal, sorted, mem⟩ := exists_selected fit.houses.named
    (inners.filter fun inner => !leftOut ignores (base.extend inner))
  obtain ⟨selected', equal', sorted', mem'⟩ := exists_selected fit'.houses.named
    (inners.filter fun inner => !leftOut ignores (base'.extend inner))
  have kept (keep : List String → Bool) (ns : List String) :
      (∃ inner ∈ inners.filter (!keep ·), Path.names inner = ns) ↔
        ∃ inner ∈ inners, Path.names inner = ns ∧ keep inner = false := by
    simp only [List.mem_filter, Bool.not_eq_true', and_assoc]
    exact exists_congr fun inner => and_congr_right fun _ => and_comm
  have equal_iff : selection tree base includes ignores extensions =
      selection tree' base' includes ignores extensions ↔
      ∀ ns, (∃ inner ∈ inners, Path.names inner = ns ∧
          leftOut ignores (base.extend inner) = false) ↔
        ∃ inner ∈ inners, Path.names inner = ns ∧
          leftOut ignores (base'.extend inner) = false := by
    rw [selection, selection, same tree base fit, same tree' base' fit', equal, equal',
      List.map_inj_right fun ns ms both => (List.map_inj_right fun _ _ =>
        (componentOf_injective ·)).1 (Option.some.inj both), eq_iff_of_sorted sorted sorted']
    refine forall_congr' fun ns => ?_
    rw [mem, mem', kept, kept]
  refine ⟨equal_iff, fun plain => equal_iff.2 fun ns => ?_⟩
  simp only [leftOut_of_plain plain]

end

/-! ## Two copies -/

def copied : Item := .directory
  [("a.ts", .file ⟨#[]⟩), ("b", .directory [("c.ts", .file ⟨#[]⟩)])]

def copies : Tree := ⟨.directory [("p", copied), ("node_modules", copied)], []⟩

theorem fits_copies {name : String} (mem : name ∈ ["p", "node_modules"]) :
    Fits copied ["*", "a.ts"] copies ⟨[name]⟩ := by
  have named (down : Path.leadsDown name = true ∧ '/' ∉ name.toList) :
      (⟨[name]⟩ : Path).Named :=
    @Path.named_mk [] [name] (.inl rfl) (List.cons_ne_nil name []) (by simpa using down)
  rcases (by simpa using mem : name = "p" ∨ name = "node_modules") with rfl | rfl
  all_goals exact ⟨⟨named (by decide), rfl, by decide⟩, fun _ _ _ => by decide⟩

theorem staysInside_star : StaysInside "*" := by
  have read : patternsOf? "*" = some [⟨[.anyText]⟩] := by decide +kernel
  refine ⟨by decide, by decide, fun _ ps same => ?_⟩
  obtain rfl := Option.some.inj (read.symm.trans same)
  decide

theorem staysInside_name : StaysInside "a.ts" := ⟨by decide, by decide, nofun⟩

theorem selection_copies :
    selection copies ⟨["p"]⟩ ["*", "a.ts"] ["b/d"] ["ts"] =
      selection copies ⟨["node_modules"]⟩ ["*", "a.ts"] ["b/d"] ["ts"] := by
  obtain ⟨inners, -, -, both⟩ := @selection_eq_iff_of_fits copied ["*", "a.ts"] ["b/d"] ["ts"]
    rfl rfl (by simp [staysInside_star, staysInside_name]) (by decide)
  exact (both _ _ _ _ (fits_copies (by decide)) (fits_copies (by decide))).2 (by decide)

/-- The pattern leaves out all of the copy in whose path its name stands. -/
theorem selection_copies_differ :
    copies.find ⟨["p"]⟩ = .ok copied ∧ copies.find ⟨["node_modules"]⟩ = .ok copied ∧
    selection copies ⟨["p"]⟩ [] ["**/node_modules/**"] ["ts"] =
      [some [.normal "a.ts"], some [.normal "b", .normal "c.ts"]] ∧
    selection copies ⟨["node_modules"]⟩ [] ["**/node_modules/**"] ["ts"] = [] := by
  have scanned {base : Path} {files : List Path}
      (found : ((foundFiles copies base []).filter fun file =>
        !(Ignores.ofTexts base ["**/node_modules/**"]).1.contains file &&
          hasExtension ["ts"] file) = files)
      (sorted : files.Pairwise fun p q => p.compare q = .lt) :
      selection copies base [] ["**/node_modules/**"] ["ts"] =
        files.map fun file => (file.below? base).map Path.components := by
    rw [selection, files_scan_eq, found, orderPaths_eq_self sorted]
  refine ⟨rfl, rfl, ?_, ?_⟩
  · exact @scanned ⟨["p"]⟩ [⟨["p", "a.ts"]⟩, ⟨["p", "b", "c.ts"]⟩] (by decide +kernel) (by decide)
  · exact @scanned ⟨["node_modules"]⟩ [] (by decide +kernel) .nil

end BundlePrep.Job
