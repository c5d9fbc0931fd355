import BundlePrep.Job.Conversion
import BundlePrep.Proofs.Job.Alone
import BundlePrep.Proofs.Message.Cut
import BundlePrep.Proofs.PrivateName.Renaming
import BundlePrep.Proofs.Text.Splicing
import Mathlib.Algebra.GroupWithZero.Nat

/-!
# Built files are converted each on its own

What becomes of a built file depends on its own text alone: it is left as it is, or it is rewritten once,
and no other file is written. So the files of a directory can be worked off in any division, as long as
no replacement cuts a character. Where one does, the run fails; until then the same was done.
-/

set_option autoImplicit false

namespace BundlePrep

namespace PrivateName

open BundlePrep.Script BundlePrep.Text

/-- The replacements in a script cut it between characters. -/
def Whole (dialect : Dialect) (code : String) : Prop :=
  '#' ∈ code.toList → ∀ program, Program.parse? dialect code.toList = some program →
    ∀ offset, Uses (byteLength code.toList) (editsOf code (resolve program)) offset →
      Between code.toList offset

theorem not_uses_nil {size offset : Nat} : ¬Uses size [] offset := by
  rintro ⟨before, e, after, same, -⟩
  rw [Edit.sorted, List.mergeSort_nil] at same
  simp at same

theorem convert_ne_cut_iff {dialect : Dialect} {code : String} :
    convert dialect code ≠ .error .cutCharacter ↔ Whole dialect code := by
  rw [convert, Whole]
  by_cases marked : '#' ∈ code.toList
  · have contains : code.toList.contains '#' = true := by simpa using marked
    rw [contains]
    simp only [marked, forall_const, Bool.not_true, Bool.false_eq_true, if_false]
    cases parsed : Program.parse? dialect code.toList with
    | none => simp
    | some program =>
      simp only [Option.some.injEq, forall_eq']
      rw [← exists_applyAll?_iff]
      cases edits : editsOf code (resolve program) with
      | nil =>
        refine iff_of_true (by simp) ((exists_applyAll?_iff code []).2 fun offset uses => ?_)
        exact absurd uses not_uses_nil
      | cons e es => cases applied : Edit.applyAll? code (e :: es) <;> simp [applied]
  · have contains : code.toList.contains '#' = false := by simpa using marked
    rw [contains]
    simp [marked]

theorem Tokened.whole {dialect : Dialect} {code : String}
    (tokened : ∀ program, Program.parse? dialect code.toList = some program →
      Tokened code.toList program.root) : Whole dialect code := by
  intro _ program parsed
  obtain ⟨conversion, converted, -⟩ := exists_conversion parsed (tokened program parsed)
  have uncut : convert dialect code ≠ .error .cutCharacter := by rw [converted]; simp
  exact convert_ne_cut_iff.1 uncut ‹_› program parsed

theorem code_of_edits_eq_zero {dialect : Dialect} {code : String} {conversion : Conversion}
    (h : convert dialect code = .ok conversion) (none : conversion.edits = 0) :
    conversion.code = code := by
  rcases convert_cases h with ⟨rfl, -⟩ | ⟨program, out, -, -, some, -, rfl⟩
  · rfl
  · exact absurd (List.length_eq_zero_iff.1 none) some

end PrivateName

namespace Job

open BundlePrep.FileTree BundlePrep.FileTree.Tree BundlePrep.Glob BundlePrep.Message
open BundlePrep.PrivateName BundlePrep.Script BundlePrep.Text

/-! ## One file -/

/-- What becomes of a file that is converted as it is in a tree. -/
def outcomeOf (tree : Tree) (file : Path) : Except Failure Conversion :=
  match tree.readText file with
  | .error e => .error ⟨[s!"Failed to read file: {file.text}"], .system e⟩
  | .ok code => (convert (.ofExtension file.extension?) code).mapError (convertFailure file.text)

def isCut : Except Failure Conversion → Bool
  | .error ⟨_, .cutCharacter⟩ => true
  | _ => false

theorem outcomeOf_eq_ok {tree : Tree} {file : Path} {c : Conversion}
    (h : outcomeOf tree file = .ok c) : ∃ code, tree.readText file = .ok code ∧
      convert (.ofExtension file.extension?) code = .ok c := by
  rw [outcomeOf] at h
  cases read : tree.readText file with
  | error e => rw [read] at h; cases h
  | ok code =>
    rw [read] at h
    exact ⟨code, rfl, mapError_eq_ok h⟩

theorem isCut_mapError (file : String) (result : Except ConvertError Conversion) :
    isCut (result.mapError (convertFailure file)) = true ↔ result = .error .cutCharacter := by
  rcases result with (_ | _) | c <;>
    simp [Except.mapError, convertFailure, isCut, Failure.malformed, Failure.ofText]

theorem isCut_outcomeOf {tree : Tree} {file : Path} : isCut (outcomeOf tree file) = false ↔
    ∀ code, tree.readText file = .ok code → Whole (.ofExtension file.extension?) code := by
  rw [outcomeOf]
  cases tree.readText file with
  | error e => simp [isCut]
  | ok code =>
    rw [← Bool.not_eq_true, isCut_mapError]
    simp [convert_ne_cut_iff]

theorem eq_of_isCut {tree : Tree} {file : Path} (h : isCut (outcomeOf tree file) = true) :
    outcomeOf tree file = .error ⟨[], .cutCharacter⟩ := by
  rw [outcomeOf] at h ⊢
  cases read : tree.readText file with
  | error e => rw [read] at h; cases h
  | ok code =>
    rw [read] at h
    dsimp only at h ⊢
    rw [(isCut_mapError file.text _).1 h]
    rfl

def conversion : Change Conversion := fun file code =>
  ((convert (.ofExtension file.extension?) code).mapError (convertFailure file.text)).map fun c =>
    (c, if 0 < c.edits then some c.code else none)

theorem outcome_conversion (tree : Tree) (file : Path) :
    conversion.outcome tree file =
      (outcomeOf tree file).map fun c => (c, if 0 < c.edits then some c.code else none) := by
  rw [Change.outcome, outcomeOf]
  cases tree.readText file <;> rfl

theorem map_outcome_conversion (tree : Tree) (file : Path) :
    (conversion.outcome tree file).map Prod.fst = outcomeOf tree file := by
  rw [outcome_conversion]
  cases outcomeOf tree file <;> rfl

theorem outcome_conversion_eq_some {tree : Tree} {file : Path} {c : Conversion} {text : String} :
    conversion.outcome tree file = .ok (c, some text) ↔
      outcomeOf tree file = .ok c ∧ 0 < c.edits ∧ c.code = text := by
  rw [outcome_conversion]
  rcases outcomeOf tree file with failure | d
  · simp [Except.map]
  · by_cases edited : 0 < d.edits
    · simp only [Except.map, edited, if_true, Except.ok.injEq, Prod.mk.injEq, Option.some.injEq]
      exact ⟨fun ⟨same, own⟩ => ⟨same, same ▸ edited, same ▸ own⟩,
        fun ⟨same, _, own⟩ => ⟨same, same ▸ own⟩⟩
    · simp only [Except.map, edited, if_false, Except.ok.injEq, Prod.mk.injEq, reduceCtorEq,
        and_false, false_iff, not_and]
      exact fun same edited' => absurd (same ▸ edited') edited

theorem describes_conversion : conversion.Describes convertFile := by
  intro file work
  rw [convertFile, Change.outcome, Run.run_bind, Run.run_readFile]
  cases read : work.tree.readText file with
  | error e => rfl
  | ok code =>
    simp only [Except.mapError, Run.run_bind, conversion]
    cases convert (.ofExtension file.extension?) code with
    | error e => rfl
    | ok c =>
      by_cases edited : 0 < c.edits
      · have wrote := Run.run_writeFile_of_read (read_of_readText read) c.code
        simp only [Except.map, edited, if_true, Run.run_ofExcept, Run.run_bind, wrote]
        rfl
      · simp only [Except.map, edited, if_false, Run.run_ofExcept]
        rfl

/-! ## Files in a row -/

def uncut (tree : Tree) (files : List Path) : List Path :=
  files.takeWhile fun file => !isCut (outcomeOf tree file)

def resultsOf (tree : Tree) (files : List Path) : Except Failure (List Converted) :=
  if uncut tree files = files then .ok (files.map fun file => (file, outcomeOf tree file))
  else .error ⟨[], .cutCharacter⟩

section

variable {tree : Tree} {file : Path} {files : List Path} {work : Work}
  {put : List (Location × ByteArray)}

theorem uncut_cons : uncut tree (file :: files) =
    if isCut (outcomeOf tree file) = true then [] else file :: uncut tree files := by
  rw [uncut, List.takeWhile_cons]
  cases isCut (outcomeOf tree file) <;> rfl

theorem uncut_append_subset (tree : Tree) (first second : List Path) :
    uncut tree first ++ uncut tree second ⊆ first ++ second :=
  List.append_subset.2 ⟨fun _ mem => List.mem_append_left _ ((List.takeWhile_prefix _).subset mem),
    fun _ mem => List.mem_append_right _ ((List.takeWhile_prefix _).subset mem)⟩

theorem resultsOf_cons : resultsOf tree (file :: files) =
    if isCut (outcomeOf tree file) = true then .error ⟨[], .cutCharacter⟩
    else (resultsOf tree files).map ((file, outcomeOf tree file) :: ·) := by
  rw [resultsOf, uncut_cons, resultsOf]
  by_cases cut : isCut (outcomeOf tree file) = true
  · rw [if_pos cut, if_pos cut, if_neg (by simp)]
  · rw [if_neg cut, if_neg cut]
    by_cases all : uncut tree files = files <;> simp [all, Except.map]

theorem run_convertBatch_cons {result : Except Failure Conversion} {next : Work}
    (turn : (convertFile file).run.run work = (result, next))
    (own : isCut result = true → result = .error ⟨[], .cutCharacter⟩) :
    (convertBatch (file :: files)).run.run work =
      if isCut result = true then (.error ⟨[], .cutCharacter⟩, next)
      else (((convertBatch files).run.run next).1.map ((file, result) :: ·),
        ((convertBatch files).run.run next).2) := by
  rw [convertBatch, Run.run_bind, Run.run_attempt, turn]
  by_cases cut : isCut result = true
  · obtain rfl := own cut
    rfl
  · rw [if_neg cut]
    dsimp only
    split
    next contexts => exact absurd rfl cut
    next =>
      rw [Run.run_bind]
      rcases (convertBatch files).run.run next with ⟨e | results, after⟩ <;> rfl

theorem run_convertBatch (settled : ∀ f ∈ files, tree.Settled f)
    (distinct : (files.map tree.target).Nodup) (reached : Rewritten put tree work.tree)
    (apart : ∀ written ∈ put, ∀ file ∈ files, written.1 ≠ tree.target file) :
    ∃ after : Work, (convertBatch files).run.run work = (resultsOf tree files, after) ∧
      Rewritten ((uncut tree files).reverse.flatMap (conversion.put tree) ++ put) tree
        after.tree := by
  induction files generalizing put work with
  | nil => exact ⟨work, rfl, reached⟩
  | cons file files ih =>
    obtain ⟨own, others⟩ := List.forall_mem_cons.1 settled
    obtain ⟨single, distinct⟩ := List.nodup_cons.1 distinct
    obtain ⟨next, turn, turned⟩ := describes_conversion.run_one own reached
      fun written mem => apart written mem file (List.mem_cons_self ..)
    rw [map_outcome_conversion] at turn
    rw [run_convertBatch_cons turn eq_of_isCut, resultsOf_cons, uncut_cons]
    by_cases cut : isCut (outcomeOf tree file) = true
    · rw [if_pos cut, if_pos cut, if_pos cut]
      refine ⟨next, rfl, ?_⟩
      rwa [Change.put, outcome_conversion, eq_of_isCut cut] at turned
    · rw [if_neg cut, if_neg cut, if_neg cut]
      obtain ⟨after, ran, rewritten⟩ := ih others distinct turned
        (Change.apart_of_nodup single apart)
      refine ⟨after, by rw [ran], ?_⟩
      rw [List.reverse_cons, List.flatMap_append, List.flatMap_singleton, List.append_assoc]
      exact rewritten

end

/-! ## All files of a directory -/

/-- The built files of a directory. -/
def builtFiles (options : ConvertOptions) (tree : Tree) : List Path :=
  (scan tree options.directory [] [] builtExtensions).files

/-- The files that are not excluded. -/
def workedFiles (options : ConvertOptions) (patterns : List Pattern) (tree : Tree) : List Path :=
  (builtFiles options tree).filter fun file => !isExcluded options.directory patterns file

def failureOf (tree : Tree) (file : Path) : Option FileError :=
  match outcomeOf tree file with
  | .ok _ => none
  | .error failure => some ⟨file, failure⟩

/-- What is counted when all files are done: the sums over the conversions, and the failures. -/
def statsOf (options : ConvertOptions) (patterns : List Pattern) (tree : Tree) : ConvertStats :=
  let worked := workedFiles options patterns tree
  let conversions := worked.filterMap fun file => (outcomeOf tree file).toOption
  { scanned := (builtFiles options tree).length
    converted := (conversions.filter (0 < ·.edits)).length
    excluded := ((builtFiles options tree).filter (isExcluded options.directory patterns)).length
    classes := (conversions.map (·.classes)).sum
    names := (conversions.map (·.names)).sum
    edits := (conversions.map (·.edits)).sum
    errors := worked.filterMap (failureOf tree) }

theorem resultsOf_append (tree : Tree) (first second : List Path) :
    (resultsOf tree first >>= fun a => (resultsOf tree second).map (a ++ ·)) =
      resultsOf tree (first ++ second) := by
  induction first with
  | nil =>
    rw [List.nil_append]
    show (resultsOf tree second).map ([] ++ ·) = _
    cases resultsOf tree second <;> rfl
  | cons file first ih =>
    rw [List.cons_append, resultsOf_cons, resultsOf_cons, ← ih]
    by_cases cut : isCut (outcomeOf tree file) = true
    · rw [if_pos cut, if_pos cut]
      rfl
    · rw [if_neg cut, if_neg cut]
      cases resultsOf tree first with
      | error e => rfl
      | ok a => cases resultsOf tree second <;> rfl

theorem eq_of_resultsOf {tree : Tree} {files : List Path} {results : List Converted}
    (h : resultsOf tree files = .ok results) :
    results = files.map fun file => (file, outcomeOf tree file) := by
  rw [resultsOf] at h
  split at h
  · exact (Except.ok.inj h).symm
  · cases h

theorem run_parseExclude {texts : List String} {patterns : List Pattern}
    (valid : texts.map Pattern.parse = patterns.map .ok) (work : Work) :
    (texts.mapM parseExclude).run.run work = (.ok patterns, work) := by
  induction texts generalizing patterns with
  | nil =>
    obtain rfl := List.map_eq_nil_iff.1 valid.symm
    rfl
  | cons text texts ih =>
    obtain ⟨p, ps, rfl, own, rest⟩ := List.map_eq_cons_iff.1 valid.symm
    have parsed : (parseExclude text).run.run work = (.ok p, work) := by
      rw [parseExclude, ← own]
      rfl
    rw [List.mapM_cons, Run.run_bind, parsed]
    dsimp only
    rw [Run.run_bind, ih rest.symm]
    rfl

theorem statsOf_eq (options : ConvertOptions) (patterns : List Pattern) (tree : Tree) :
    let results : List Converted :=
      (workedFiles options patterns tree).map fun file => (file, outcomeOf tree file)
    let conversions := results.filterMap conversionOf
    statsOf options patterns tree =
      { scanned := (builtFiles options tree).length
        converted := (conversions.filter (0 < ·.edits)).length
        excluded := ((builtFiles options tree).filter
          (isExcluded options.directory patterns)).length
        classes := (conversions.map (·.classes)).foldl (· + ·) 0
        names := (conversions.map (·.names)).foldl (· + ·) 0
        edits := (conversions.map (·.edits)).foldl (· + ·) 0
        errors := results.filterMap convertErrorOf } := by
  have conversions : (fun file => conversionOf (file, outcomeOf tree file)) =
      fun file => (outcomeOf tree file).toOption := by
    funext file
    cases outcomeOf tree file <;> rfl
  have failures : (fun file => convertErrorOf (file, outcomeOf tree file)) = failureOf tree := by
    funext file
    rw [failureOf]
    cases outcomeOf tree file <;> rfl
  simp only [statsOf, List.filterMap_map, Function.comp_def, conversions, failures,
    List.sum_eq_foldl]

theorem on_convertFiles_of_halves {options : ConvertOptions} {patterns : List Pattern} {tree : Tree}
    (valid : options.excludes.map Pattern.parse = patterns.map .ok) {mid after : Work}
    {first second : List Path}
    (halves : (workedFiles options patterns tree).splitAt
      ((workedFiles options patterns tree).length / 2) = (first, second))
    (ran : (convertBatch first).run.run
      ⟨tree, (scan tree options.directory [] [] builtExtensions).warnings⟩ =
        (resultsOf tree first, mid))
    (ran' : (convertBatch second).run.run mid = (resultsOf tree second, after)) :
    Run.on tree (convertFiles options) =
      ((resultsOf tree (workedFiles options patterns tree)).map
        fun _ => statsOf options patterns tree, after) := by
  have worked : first ++ second = workedFiles options patterns tree := by
    rw [List.splitAt_eq] at halves
    rw [← (Prod.mk.inj halves).1, ← (Prod.mk.inj halves).2, List.take_append_drop]
  have parts : (builtFiles options tree).partition (isExcluded options.directory patterns) =
      ((builtFiles options tree).filter (isExcluded options.directory patterns),
        workedFiles options patterns tree) := List.partition_eq_filter_filter ..
  have stats := statsOf_eq options patterns tree
  rw [Run.on, convertFiles, Run.run_bind, run_parseExclude valid]
  dsimp only
  rw [Run.run_bind, Run.run_scanned]
  dsimp only
  rw [← builtFiles, parts]
  dsimp only
  rw [halves]
  dsimp only
  rw [Run.run_bind, Run.run_attempt, List.nil_append, ran]
  dsimp only
  rw [Run.run_bind, Run.run_attempt, ran', ← worked, ← resultsOf_append]
  dsimp only
  rw [Run.run_bind, Run.run_ofExcept]
  cases firstResults : resultsOf tree first with
  | error e => rfl
  | ok a =>
    dsimp only
    rw [Run.run_bind, Run.run_ofExcept]
    cases secondResults : resultsOf tree second with
    | error e => rfl
    | ok b =>
      obtain rfl := eq_of_resultsOf firstResults
      obtain rfl := eq_of_resultsOf secondResults
      rw [stats, ← worked, List.map_append]
      rfl

theorem on_convertFiles {options : ConvertOptions} {patterns : List Pattern} {tree : Tree}
    (proper : tree.Proper) (valid : options.excludes.map Pattern.parse = patterns.map .ok) :
    ∃ (first second : List Path) (after : Work),
      first ++ second = workedFiles options patterns tree ∧
      Run.on tree (convertFiles options) =
        ((resultsOf tree (workedFiles options patterns tree)).map
          fun _ => statsOf options patterns tree, after) ∧
      conversion.Applied (uncut tree first ++ uncut tree second) tree after.tree := by
  set worked := workedFiles options patterns tree with all
  set start : Work := ⟨tree, (scan tree options.directory [] [] builtExtensions).warnings⟩
  have inside : worked.Sublist (builtFiles options tree) := List.filter_sublist
  have settled : ∀ file ∈ worked, tree.Settled file := fun file mem =>
    settled_of_mem_scan proper (inside.subset mem)
  have distinct : (worked.map tree.target).Nodup :=
    (nodup_target_scan proper).sublist (inside.map tree.target)
  rcases halves : worked.splitAt (worked.length / 2) with ⟨first, second⟩
  have split : first ++ second = worked := by
    rw [List.splitAt_eq] at halves
    rw [← (Prod.mk.inj halves).1, ← (Prod.mk.inj halves).2, List.take_append_drop]
  rw [← split] at settled distinct
  have parts := distinct
  rw [List.map_append, List.nodup_append] at parts
  obtain ⟨distinctFirst, distinctSecond, disjoint⟩ := parts
  obtain ⟨mid, ran, written⟩ := @run_convertBatch tree first start []
    (fun file mem => settled file (List.mem_append_left _ mem)) distinctFirst (.refl tree) (by simp)
  rw [List.append_nil] at written
  obtain ⟨after, ran', written'⟩ := run_convertBatch
    (fun file mem => settled file (List.mem_append_right _ mem)) distinctSecond written
    fun w mem file listed => by
      obtain ⟨other, uncut, own⟩ := List.mem_flatMap.1 mem
      obtain ⟨c, text, -, rfl⟩ := Change.mem_put.1 own
      have front : other ∈ first := (List.takeWhile_prefix _).subset (List.mem_reverse.1 uncut)
      exact disjoint _ (List.mem_map_of_mem front) _ (List.mem_map_of_mem listed)
  rw [← List.flatMap_append, ← List.reverse_append] at written'
  exact ⟨first, second, after, split, on_convertFiles_of_halves valid halves ran ran',
    Change.applied_of_rewritten distinct (uncut_append_subset tree first second) written'⟩

/-- The scripts of all files that are converted stay whole. -/
def AllWhole (options : ConvertOptions) (patterns : List Pattern) (tree : Tree) : Prop :=
  ∀ file ∈ workedFiles options patterns tree, ∀ code, tree.readText file = .ok code →
    Whole (.ofExtension file.extension?) code

/-- Of each file there is its own conversion, if there is one with an edit, and all else is as it was. -/
structure EachConverted (options : ConvertOptions) (patterns : List Pattern) (tree after : Tree) :
    Prop where
  converted : ∀ file ∈ workedFiles options patterns tree, ∀ c, outcomeOf tree file = .ok c →
    after.read file = .ok c.code.toUTF8
  unedited : ∀ file ∈ workedFiles options patterns tree, ∀ c, outcomeOf tree file = .ok c →
    c.edits = 0 → after.kind? (tree.target file) = tree.kind? (tree.target file)
  failed : ∀ file ∈ workedFiles options patterns tree, ∀ failure,
    outcomeOf tree file = .error failure →
      after.kind? (tree.target file) = tree.kind? (tree.target file)
  excluded : ∀ file ∈ builtFiles options tree, isExcluded options.directory patterns file = true →
    after.kind? (tree.target file) = tree.kind? (tree.target file)
  other : ∀ location, (∀ file ∈ builtFiles options tree, tree.target file ≠ location) →
    after.kind? location = tree.kind? location

/-- Some files hold their own conversions, and all else is as it was. -/
def SomeConverted (options : ConvertOptions) (patterns : List Pattern) (tree after : Tree) : Prop :=
  ∀ location, after.kind? location = tree.kind? location ∨
    ∃ file ∈ workedFiles options patterns tree, ∃ c, outcomeOf tree file = .ok c ∧ 0 < c.edits ∧
      location = tree.target file ∧ after.kind? location = some (.file c.code.toUTF8)

theorem uncut_eq_self_iff {tree : Tree} {files : List Path} : uncut tree files = files ↔
    ∀ file ∈ files, isCut (outcomeOf tree file) = false := by
  simp [uncut, List.takeWhile_eq_self_iff]

section

variable {options : ConvertOptions} {patterns : List Pattern} {tree after : Tree}

theorem target_ne_of_mem (proper : tree.Proper) {a b : Path} (memA : a ∈ builtFiles options tree)
    (memB : b ∈ builtFiles options tree) (ne : a ≠ b) : tree.target a ≠ tree.target b :=
  fun same => ne (List.inj_on_of_nodup_map (nodup_target_scan proper) memA memB same)

theorem eachConverted_of_applied (proper : tree.Proper)
    (h : conversion.Applied (workedFiles options patterns tree) tree after) :
    EachConverted options patterns tree after := by
  have built {file : Path} (mem : file ∈ workedFiles options patterns tree) :
      file ∈ builtFiles options tree := (List.mem_filter.1 mem).1
  have kept {file : Path} (mem : file ∈ builtFiles options tree)
      (unwritten : file ∈ workedFiles options patterns tree → ∀ c, outcomeOf tree file = .ok c →
        c.edits = 0) : after.kind? (tree.target file) = tree.kind? (tree.target file) := by
    refine h.kept _ fun other mem' c text outcome => ?_
    obtain ⟨outcome, edited, -⟩ := outcome_conversion_eq_some.1 outcome
    by_cases own : other = file
    · subst own
      have none := unwritten mem' c outcome
      omega
    · exact target_ne_of_mem proper (built mem') mem own
  constructor
  · intro file mem c outcome
    obtain ⟨code, read, converted⟩ := outcomeOf_eq_ok outcome
    have old := read_of_readText read
    refine h.grows.read old ?_
    by_cases edited : 0 < c.edits
    · exact h.held file mem c c.code (outcome_conversion_eq_some.2 ⟨outcome, edited, rfl⟩)
    · have none : c.edits = 0 := by omega
      rw [code_of_edits_eq_zero converted none, kept (built mem) fun _ c' outcome' => by
        rw [outcome] at outcome'
        rw [← Except.ok.inj outcome', none]]
      exact (read_eq_ok.1 old).2
  · intro file mem c outcome none
    refine kept (built mem) fun _ c' outcome' => ?_
    rw [outcome] at outcome'
    rw [← Except.ok.inj outcome', none]
  · intro file mem failure outcome
    refine kept (built mem) fun _ c' outcome' => ?_
    rw [outcome] at outcome'
    cases outcome'
  · intro file mem excluded
    refine kept mem fun mem' => ?_
    have worked := (List.mem_filter.1 mem').2
    rw [excluded] at worked
    cases worked
  · intro location apart
    exact h.kept location fun file mem _ _ _ => apart file (built mem)

theorem someConverted_of_applied {done : List Path}
    (inside : done ⊆ workedFiles options patterns tree)
    (h : conversion.Applied done tree after) : SomeConverted options patterns tree after := by
  intro location
  by_cases own : ∃ file ∈ done, ∃ c, outcomeOf tree file = .ok c ∧ 0 < c.edits ∧
      tree.target file = location
  · obtain ⟨file, mem, c, outcome, edited, rfl⟩ := own
    exact .inr ⟨file, inside mem, c, outcome, edited, rfl,
      h.held file mem c c.code (outcome_conversion_eq_some.2 ⟨outcome, edited, rfl⟩)⟩
  · refine .inl (h.kept location fun file mem c text outcome same => own ?_)
    obtain ⟨outcome, edited, -⟩ := outcome_conversion_eq_some.1 outcome
    exact ⟨file, mem, c, outcome, edited, same⟩

end

/-- With excludes that are patterns, a directory is converted if the replacements in each of its files
cut this file between characters: the run succeeds, each file ends up as its own conversion or is listed
with its failure, and nothing else is changed. If a replacement in some file cuts a character, the run
fails, with some of the files converted. Replacements in place of tokens cut between characters. -/
theorem converted_each {options : ConvertOptions} {patterns : List Pattern} {tree : Tree}
    (proper : tree.Proper) (valid : options.excludes.map Pattern.parse = patterns.map .ok) :
    (∃ result after, Run.on tree (convertFiles options) = (result, after) ∧
      (AllWhole options patterns tree → result = .ok (statsOf options patterns tree) ∧
        EachConverted options patterns tree after.tree) ∧
      (¬AllWhole options patterns tree → result = .error ⟨[], .cutCharacter⟩ ∧
        SomeConverted options patterns tree after.tree)) ∧
    ∀ dialect code, (∀ program, Program.parse? dialect code.toList = some program →
      Tokened code.toList program.root) → Whole dialect code := by
  refine ⟨?_, fun dialect code => Tokened.whole⟩
  obtain ⟨first, second, after, worked, on, applied⟩ := on_convertFiles proper valid
  have whole : AllWhole options patterns tree ↔
      uncut tree (workedFiles options patterns tree) = workedFiles options patterns tree := by
    rw [uncut_eq_self_iff]
    exact forall₂_congr fun file _ => isCut_outcomeOf.symm
  refine ⟨_, after, on, fun all => ?_, fun cut => ?_⟩
  · have results : resultsOf tree (workedFiles options patterns tree) = .ok _ :=
      if_pos (whole.1 all)
    rw [results]
    refine ⟨rfl, eachConverted_of_applied proper ?_⟩
    rw [whole, uncut_eq_self_iff, ← worked, List.forall_mem_append] at all
    rwa [uncut_eq_self_iff.2 all.1, uncut_eq_self_iff.2 all.2, worked] at applied
  · have results : resultsOf tree (workedFiles options patterns tree) = .error _ :=
      if_neg (mt whole.2 cut)
    rw [results]
    exact ⟨rfl, someConverted_of_applied (worked ▸ uncut_append_subset tree first second) applied⟩

/-! ## Files that fail beside others -/

def mixedTree : Tree :=
  ⟨.directory [("out", .directory
    [("a.js", .file "class A \x7b #x = 1; \x7d".toUTF8), ("b.js", .file ⟨#[255]⟩),
      ("c.js", .file "class \x7b".toUTF8), ("d.js", .file "class D \x7b #y; \x7d".toUTF8)])], []⟩

def mixedOptions : ConvertOptions := ⟨⟨["out"]⟩, ["d.*"]⟩

def mixedPattern : Pattern := ⟨[.char 'd', .char '.', .anyText]⟩

theorem workedFiles_mixed : workedFiles mixedOptions [mixedPattern] mixedTree =
    [⟨["out", "a.js"]⟩, ⟨["out", "b.js"]⟩, ⟨["out", "c.js"]⟩] := by
  have built : builtFiles mixedOptions mixedTree =
      [⟨["out", "a.js"]⟩, ⟨["out", "b.js"]⟩, ⟨["out", "c.js"]⟩, ⟨["out", "d.js"]⟩] :=
    orderPaths_eq_self (by decide +kernel)
  rw [workedFiles, built]
  decide +kernel

theorem converted_each_mixed : mixedTree.Proper ∧
    mixedOptions.excludes.map Pattern.parse = [mixedPattern].map .ok ∧
    ∃ after, Run.on mixedTree (convertFiles mixedOptions) =
        (.ok (statsOf mixedOptions [mixedPattern] mixedTree), after) ∧
      EachConverted mixedOptions [mixedPattern] mixedTree after.tree ∧
      after.tree.read ⟨["out", "a.js"]⟩ = .ok "class A \x7b $a = 1; \x7d".toUTF8 := by
  have proper : mixedTree.Proper := by decide +kernel
  have valid : mixedOptions.excludes.map Pattern.parse = [mixedPattern].map .ok := by
    decide +kernel
  have uncut : ∀ file ∈ workedFiles mixedOptions [mixedPattern] mixedTree,
      isCut (outcomeOf mixedTree file) = false := by
    rw [workedFiles_mixed]
    decide +kernel
  obtain ⟨⟨result, after, on, all, -⟩, -⟩ := converted_each proper valid
  obtain ⟨rfl, each⟩ := all fun file mem => isCut_outcomeOf.1 (uncut file mem)
  refine ⟨proper, valid, after, on, each, ?_⟩
  have mem : ⟨["out", "a.js"]⟩ ∈ workedFiles mixedOptions [mixedPattern] mixedTree := by
    rw [workedFiles_mixed]
    exact List.mem_cons_self ..
  exact each.converted _ mem ⟨"class A \x7b $a = 1; \x7d", 1, 1, 1⟩ (by decide +kernel)

def cutTree : Tree :=
  ⟨.directory [("out", .directory
    [("a.js", .file "class A \x7b #x = 1; \x7d".toUTF8),
      ("b.js", .file "\ufeffclass B \x7b /*日*/#x = 1; \x7d".toUTF8),
      ("c.js", .file "class C \x7b #y = 1; \x7d".toUTF8)])], []⟩

def cutOptions : ConvertOptions := ⟨⟨["out"]⟩, []⟩

/-- One file ends the run for all of them. -/
theorem cut_ends_run : cutTree.Proper ∧
    outcomeOf cutTree ⟨["out", "a.js"]⟩ = .ok ⟨"class A \x7b $a = 1; \x7d", 1, 1, 1⟩ ∧
    outcomeOf cutTree ⟨["out", "c.js"]⟩ = .ok ⟨"class C \x7b $a = 1; \x7d", 1, 1, 1⟩ ∧
    (Run.on cutTree (convertFiles cutOptions)).1 = .error ⟨[], .cutCharacter⟩ := by
  have proper : cutTree.Proper := by decide +kernel
  have built : builtFiles cutOptions cutTree =
      [⟨["out", "a.js"]⟩, ⟨["out", "b.js"]⟩, ⟨["out", "c.js"]⟩] :=
    orderPaths_eq_self (by decide +kernel)
  have cut : isCut (outcomeOf cutTree ⟨["out", "b.js"]⟩) = true := by decide +kernel
  have worked : ⟨["out", "b.js"]⟩ ∈ workedFiles cutOptions [] cutTree := by
    rw [workedFiles, built]
    decide +kernel
  obtain ⟨first, second, after, -, on, -⟩ := @on_convertFiles cutOptions [] cutTree proper rfl
  have results : resultsOf cutTree (workedFiles cutOptions [] cutTree) = .error _ :=
    if_neg fun all => by
      have uncut := uncut_eq_self_iff.1 all _ worked
      rw [cut] at uncut
      cases uncut
  refine ⟨proper, by decide +kernel, by decide +kernel, ?_⟩
  rw [on, results]
  rfl

end Job

end BundlePrep
