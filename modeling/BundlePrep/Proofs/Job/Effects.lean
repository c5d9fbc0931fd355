import BundlePrep.Job.Extraction
import BundlePrep.Proofs.FileTree.Rewriting

/-!
# What runs write

A run that succeeds has written its files, one after another; one that fails has stopped on the way.
What was written stays.
-/

set_option autoImplicit false

namespace BundlePrep.Job

open BundlePrep.FileTree BundlePrep.FileTree.Tree BundlePrep.Message

namespace Run

variable {α β : Type}

theorem run_bind (x : Run α) (f : α → Run β) (work : Work) :
    (x >>= f).run.run work =
      match x.run.run work with
      | (.ok a, next) => (f a).run.run next
      | (.error e, next) => (.error e, next) := by
  simp only [ExceptT.run_bind, StateT.run_bind]
  rcases x.run.run work with ⟨a | a, next⟩ <;> rfl

theorem run_ofExcept (result : Except Failure α) (work : Work) :
    (ExceptT.mk (pure result) : Run α).run.run work = (result, work) := rfl

theorem run_within (context : String) (x : Run α) (work : Work) :
    (within context x).run.run work =
      ((x.run.run work).1.mapError (Failure.within context), (x.run.run work).2) := rfl

theorem run_attempt (x : Run α) (work : Work) :
    x.attempt.run.run work = (.ok (x.run.run work).1, (x.run.run work).2) := rfl

theorem run_scanned (base : Path) (includes ignores extensions : List String) (work : Work) :
    (scanned base includes ignores extensions).run.run work =
      (.ok (scan work.tree base includes ignores extensions).files,
        ⟨work.tree,
          work.warnings ++ (scan work.tree base includes ignores extensions).warnings⟩) :=
  rfl

theorem run_readFile (p : Path) (work : Work) :
    (readFile p).run.run work =
      ((work.tree.readText p).mapError fun e =>
        ⟨[s!"Failed to read file: {p.text}"], .system e⟩, work) := by
  rw [readFile, run_within, readText, run_bind]
  show (((ofSystem (work.tree.readText p)).run.run work).1.mapError _,
    ((ofSystem (work.tree.readText p)).run.run work).2) = _
  cases work.tree.readText p <;> rfl

theorem run_writeText (p : Path) (text : String) (work : Work) :
    (writeText p text).run.run work =
      match work.tree.write p text.toUTF8 with
      | .ok tree => (.ok (), { work with tree })
      | .error e => (.error ⟨[], .system e⟩, work) := by
  rw [writeText, run_bind]
  show ((ofSystem (work.tree.write p text.toUTF8) >>= setTree).run.run work) = _
  cases work.tree.write p text.toUTF8 <;> rfl

theorem run_makeDirectories (p : Path) (work : Work) :
    (makeDirectories p).run.run work =
      ((work.tree.makeDirectories p).1.mapError fun e =>
        ⟨[s!"Failed to create directory: {p.text}"], .system e⟩,
        { work with tree := (work.tree.makeDirectories p).2 }) := by
  have unfolded : makeDirectories p = within s!"Failed to create directory: {p.text}"
      (Run.tree >>= fun tree => setTree (tree.makeDirectories p).2 >>=
        fun _ => ofSystem (tree.makeDirectories p).1) := rfl
  have inner : (Run.tree >>= fun tree => setTree (tree.makeDirectories p).2 >>=
      fun _ => ofSystem (tree.makeDirectories p).1).run.run work =
        ((work.tree.makeDirectories p).1.mapError fun e => ⟨[], .system e⟩,
          { work with tree := (work.tree.makeDirectories p).2 }) := by
    show (setTree (work.tree.makeDirectories p).2 >>=
      fun _ => ofSystem (work.tree.makeDirectories p).1).run.run work = _
    cases (work.tree.makeDirectories p).1 <;> rfl
  rw [unfolded, run_within, inner]
  cases (work.tree.makeDirectories p).1 <;> rfl

/-! ## What is written -/

structure Writes (run : Run α) (files : List (Path × ByteArray)) : Prop where
  done : ∀ {work after : Work} {a : α}, run.run.run work = (.ok a, after) →
    Written files work.tree after.tree
  failed : ∀ {work after : Work} {e : Failure}, run.run.run work = (.error e, after) →
    ∃ part, part <:+ files ∧ Written part work.tree after.tree

namespace Writes

variable {x : Run α} {files more : List (Path × ByteArray)}

theorem pure (a : α) : Writes (pure a) [] where
  done h := by cases h; exact .none (.refl _)
  failed h := by cases h

theorem bind {f : α → Run β} (h : Writes x files) (next : ∀ a, Writes (f a) more) :
    Writes (x >>= f) (more ++ files) where
  done {work after b} ran := by
    rw [run_bind] at ran
    rcases first : x.run.run work with ⟨e | a, mid⟩
    · rw [first] at ran; cases ran
    · rw [first] at ran
      exact (h.done first).trans ((next a).done ran)
  failed {work after e} ran := by
    rw [run_bind] at ran
    rcases first : x.run.run work with ⟨e | a, mid⟩
    · rw [first] at ran
      cases ran
      obtain ⟨part, tail, written⟩ := h.failed first
      exact ⟨part, tail.trans (List.suffix_append ..), written⟩
    · rw [first] at ran
      obtain ⟨part, tail, written⟩ := (next a).failed ran
      obtain ⟨front, rfl⟩ := tail
      exact ⟨part ++ files, ⟨front, by rw [List.append_assoc]⟩, (h.done first).trans written⟩

theorem within (context : String) (h : Writes x files) : Writes (within context x) files where
  done {work after a} ran := by
    rw [run_within] at ran
    rcases inner : x.run.run work with ⟨e | a, mid⟩
    · rw [inner] at ran; cases ran
    · rw [inner] at ran
      cases ran
      exact h.done inner
  failed {work after e} ran := by
    rw [run_within] at ran
    rcases inner : x.run.run work with ⟨e | a, mid⟩
    · rw [inner] at ran
      cases ran
      exact h.failed inner
    · rw [inner] at ran; cases ran

theorem forM {f : α → Run Unit} {files : α → List (Path × ByteArray)}
    (each : ∀ a, Writes (f a) (files a)) (as : List α) :
    Writes (as.forM f) (as.reverse.flatMap files) := by
  induction as with
  | nil => exact .pure ()
  | cons a as ih =>
    rw [List.reverse_cons, List.flatMap_append]
    simpa using (each a).bind fun _ => ih

theorem exists_part (h : Writes x files) (work : Work) :
    ∃ part, part ⊆ files ∧ Written part work.tree (x.run.run work).2.tree := by
  rcases ran : x.run.run work with ⟨e | a, after⟩
  · obtain ⟨part, tail, written⟩ := h.failed ran
    exact ⟨part, tail.subset, written⟩
  · exact ⟨files, List.Subset.refl _, h.done ran⟩

end Writes

theorem writes_makeDirectories (p : Path) : Writes (makeDirectories p) [] where
  done {work after a} ran := by
    rw [run_makeDirectories] at ran
    rw [← (Prod.mk.inj ran).2]
    exact .none (later_makeDirectories work.tree p)
  failed {work after e} ran := by
    rw [run_makeDirectories] at ran
    rw [← (Prod.mk.inj ran).2]
    exact ⟨[], List.suffix_rfl, .none (later_makeDirectories work.tree p)⟩

theorem writes_writeText (p : Path) (text : String) :
    Writes (writeText p text) [(p, text.toUTF8)] where
  done {work after a} ran := by
    rw [run_writeText] at ran
    cases written : work.tree.write p text.toUTF8 with
    | error e => rw [written] at ran; cases ran
    | ok tree =>
      rw [written] at ran
      cases ran
      exact .write (.none (.refl _)) written (.refl _)
  failed {work after e} ran := by
    rw [run_writeText] at ran
    cases written : work.tree.write p text.toUTF8 with
    | error e =>
      rw [written] at ran
      cases ran
      exact ⟨[], List.nil_suffix, .none (.refl _)⟩
    | ok tree => rw [written] at ran; cases ran

theorem writes_writeInto (p : Path) (text : String) :
    Writes (writeInto p text) [(p, text.toUTF8)] :=
  (writes_writeText p text).within _

theorem writes_writeFile (p : Path) (text : String) :
    Writes (writeFile p text) [(p, text.toUTF8)] := by
  rw [writeFile]
  split
  · exact (writes_makeDirectories _).bind fun _ => writes_writeInto p text
  · exact writes_writeInto p text

theorem later_of_writeFile_error {p : Path} {text : String} {work after : Work} {e : Failure}
    (h : (writeFile p text).run.run work = (.error e, after)) : Later [] work.tree after.tree := by
  have unwritten {work : Work} (h : (writeInto p text).run.run work = (.error e, after)) :
      after = work := by
    rw [writeInto, run_within, run_writeText] at h
    cases written : work.tree.write p text.toUTF8 with
    | error e =>
      rw [written] at h
      exact (Prod.mk.inj h).2.symm
    | ok tree =>
      rw [written] at h
      cases (Prod.mk.inj h).1
  rw [writeFile] at h
  split at h
  next above _ =>
    rw [run_bind, run_makeDirectories] at h
    have made := later_makeDirectories work.tree above
    cases done : (work.tree.makeDirectories above).1 with
    | error e =>
      rw [done] at h
      rw [← (Prod.mk.inj h).2]
      exact made
    | ok _ =>
      rw [done] at h
      rw [unwritten h]
      exact made
  next => exact unwritten h ▸ .refl _

theorem run_writeFile_of_read {p : Path} {old : ByteArray} {work : Work}
    (h : work.tree.read p = .ok old) (text : String) :
    (writeFile p text).run.run work =
      (.ok (), { work with tree := work.tree.rewrite p text.toUTF8 }) := by
  have written : (writeInto p text).run.run work =
      (.ok (), { work with tree := work.tree.rewrite p text.toUTF8 }) := by
    rw [writeInto, run_within, run_writeText, write_of_read h]
    rfl
  rw [writeFile]
  split
  next above parent =>
    rw [run_bind, run_makeDirectories, makeDirectories_parent h parent]
    exact written
  next => exact written

end Run

def artifactFiles (catalog : Catalog) (globalName : String) (directory : Path) :
    List (Path × ByteArray) :=
  ((catalog.artifacts globalName).map fun artifact =>
    (directory.child artifact.1, artifact.2.toUTF8)).reverse

theorem writes_writeArtifacts (catalog : Catalog) (globalName : String) (directory : Path) :
    Run.Writes (writeArtifacts catalog globalName directory)
      (artifactFiles catalog globalName directory) := by
  have each := Run.Writes.forM
    (fun artifact : String × String => Run.writes_writeInto (directory.child artifact.1) artifact.2)
    (catalog.artifacts globalName)
  have whole := (Run.writes_makeDirectories directory).bind fun _ => each
  rw [List.append_nil, ← List.map_eq_flatMap, List.map_reverse] at whole
  exact whole

end BundlePrep.Job
