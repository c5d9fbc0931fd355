import BundlePrep.Proofs.Job.Effects
import BundlePrep.Proofs.Job.Scanning

/-!
# Files that are worked on alone

Some work on a file reads its text, gives a result, and rewrites the file or leaves it as it is. Files at
different locations that are worked on like this do not get into each other's way: each of them gives
what it would have given at the start, and nothing else is changed.
-/

set_option autoImplicit false

namespace BundlePrep.Job

open BundlePrep.FileTree BundlePrep.FileTree.Tree

abbrev Change (α : Type) := Path → String → Except Failure (α × Option String)

variable {α : Type}

namespace Change

def outcome (change : Change α) (tree : Tree) (file : Path) : Except Failure (α × Option String) :=
  match tree.readText file with
  | .error e => .error ⟨[s!"Failed to read file: {file.text}"], .system e⟩
  | .ok code => change file code

def put (change : Change α) (tree : Tree) (file : Path) : List (Location × ByteArray) :=
  match change.outcome tree file with
  | .ok (_, some text) => [(tree.target file, text.toUTF8)]
  | _ => []

theorem mem_put {change : Change α} {tree : Tree} {file : Path} {written : Location × ByteArray} :
    written ∈ change.put tree file ↔ ∃ a text, change.outcome tree file = .ok (a, some text) ∧
      written = (tree.target file, text.toUTF8) := by
  rw [put]
  rcases change.outcome tree file with failure | ⟨a, _ | text⟩ <;> simp

def Describes (change : Change α) (turn : Path → Run α) : Prop :=
  ∀ file work, (turn file).run.run work =
    match change.outcome work.tree file with
    | .error failure => (.error failure, work)
    | .ok (a, none) => (.ok a, work)
    | .ok (a, some text) => (.ok a, { work with tree := work.tree.rewrite file text.toUTF8 })

structure Applied (change : Change α) (done : List Path) (before after : Tree) : Prop where
  grows : Grows before after
  held : ∀ file ∈ done, ∀ a text, change.outcome before file = .ok (a, some text) →
    after.kind? (before.target file) = some (.file text.toUTF8)
  kept : ∀ location, (∀ file ∈ done, ∀ a text, change.outcome before file = .ok (a, some text) →
    before.target file ≠ location) → after.kind? location = before.kind? location

section

variable {change : Change α} {turn : Path → Run α} {tree : Tree} {file : Path} {files : List Path}
  {work : Work} {put : List (Location × ByteArray)}

theorem outcome_of_rewritten (settled : tree.Settled file) (reached : Rewritten put tree work.tree)
    (apart : ∀ written ∈ put, written.1 ≠ tree.target file) :
    change.outcome work.tree file = change.outcome tree file := by
  rw [outcome, outcome, settled.readText reached.grows (reached.kind?_of_not_mem apart)]

theorem Describes.run_one (describes : change.Describes turn) (settled : tree.Settled file)
    (reached : Rewritten put tree work.tree)
    (apart : ∀ written ∈ put, written.1 ≠ tree.target file) :
    ∃ after : Work,
      (turn file).run.run work = ((change.outcome tree file).map Prod.fst, after) ∧
      Rewritten (change.put tree file ++ put) tree after.tree := by
  have same := @outcome_of_rewritten _ change _ _ _ _ settled reached apart
  rw [describes, same, Change.put]
  rcases found : change.outcome tree file with failure | ⟨a, _ | text⟩
  · exact ⟨work, rfl, reached⟩
  · exact ⟨work, rfl, reached⟩
  · rw [outcome] at same
    cases read : work.tree.readText file with
    | error e => rw [read, found] at same; cases same
    | ok code => exact ⟨_, rfl, reached.rewrite (read_of_readText read) _⟩

theorem apart_of_nodup (single : tree.target file ∉ files.map tree.target)
    (apart : ∀ written ∈ put, ∀ other ∈ file :: files, written.1 ≠ tree.target other) :
    ∀ written ∈ change.put tree file ++ put, ∀ other ∈ files, written.1 ≠ tree.target other := by
  intro written mem other listed
  rcases List.mem_append.1 mem with mem | mem
  · obtain ⟨a, text, -, rfl⟩ := mem_put.1 mem
    exact fun same => single (List.mem_map.2 ⟨other, listed, same.symm⟩)
  · exact apart written mem other (List.mem_cons_of_mem _ listed)

theorem Describes.run_mapM (describes : change.Describes turn)
    (settled : ∀ file ∈ files, tree.Settled file) (distinct : (files.map tree.target).Nodup)
    (reached : Rewritten put tree work.tree)
    (apart : ∀ written ∈ put, ∀ file ∈ files, written.1 ≠ tree.target file) :
    ∃ after : Work,
      (files.mapM fun file => do return (file, ← (turn file).attempt) :
        Run (List (Path × Except Failure α))).run.run work =
          (.ok (files.map fun file => (file, (change.outcome tree file).map Prod.fst)), after) ∧
      Rewritten (files.reverse.flatMap (change.put tree) ++ put) tree after.tree := by
  induction files generalizing put work with
  | nil => exact ⟨work, rfl, reached⟩
  | cons file files ih =>
    obtain ⟨own, others⟩ := List.forall_mem_cons.1 settled
    obtain ⟨single, distinct⟩ := List.nodup_cons.1 distinct
    obtain ⟨next, ran, turned⟩ := describes.run_one own reached
      fun written mem => apart written mem file (List.mem_cons_self ..)
    obtain ⟨after, rest, rewritten⟩ := ih others distinct turned (apart_of_nodup single apart)
    refine ⟨after, ?_, ?_⟩
    · have first : (do return (file, ← (turn file).attempt) :
          Run (Path × Except Failure α)).run.run work =
            (.ok (file, (change.outcome tree file).map Prod.fst), next) := by
        rw [Run.run_bind, Run.run_attempt, ran]
        rfl
      rw [List.mapM_cons, Run.run_bind, first]
      dsimp only
      rw [Run.run_bind, rest]
      rfl
    · rw [List.reverse_cons, List.flatMap_append, List.flatMap_singleton, List.append_assoc]
      exact rewritten

theorem applied_of_rewritten {done : List Path} {after : Tree}
    (distinct : (files.map tree.target).Nodup) (inside : done ⊆ files)
    (written : Rewritten (done.reverse.flatMap (change.put tree)) tree after) :
    change.Applied done tree after := by
  have member {w : Location × ByteArray} : w ∈ done.reverse.flatMap (change.put tree) ↔
      ∃ file ∈ done, ∃ a text, change.outcome tree file = .ok (a, some text) ∧
        w = (tree.target file, text.toUTF8) := by
    simp only [List.mem_flatMap, List.mem_reverse, mem_put]
  refine ⟨written.grows, fun file mem a text outcome => ?_, fun location apart => ?_⟩
  · refine written.kind?_of_mem (member.2 ⟨file, mem, a, text, outcome, rfl⟩) fun w listed same => ?_
    obtain ⟨other, mem', a', text', outcome', rfl⟩ := member.1 listed
    obtain rfl := List.inj_on_of_nodup_map distinct (inside mem') (inside mem) same
    rw [outcome] at outcome'
    cases outcome'
    rfl
  · refine written.kind?_of_not_mem fun w listed => ?_
    obtain ⟨file, mem, a, text, outcome, rfl⟩ := member.1 listed
    exact apart file mem a text outcome

end

end Change

end BundlePrep.Job
