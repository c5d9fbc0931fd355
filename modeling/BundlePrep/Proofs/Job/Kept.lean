import BundlePrep.Proofs.FileTree.Kept
import BundlePrep.Proofs.Job.Outcome

/-!
# Runs that keep a tree proper

What a run writes leaves a proper tree proper, whether the run succeeds or not.
-/

set_option autoImplicit false

namespace BundlePrep.Job

open BundlePrep.FileTree BundlePrep.FileTree.Tree BundlePrep.Message

namespace Run

variable {α β : Type}

def Keeps (x : Run α) : Prop := ∀ work, work.tree.Proper → (x.run.run work).2.tree.Proper

namespace Keeps

variable {x : Run α}

theorem pure (a : α) : Keeps (pure a) := fun _ proper => proper

theorem bind {f : α → Run β} (h : Keeps x) (next : ∀ a, Keeps (f a)) : Keeps (x >>= f) := by
  intro work proper
  have own := h work proper
  rw [run_bind]
  rcases ran : x.run.run work with ⟨e | a, mid⟩ <;> rw [ran] at own
  · exact own
  · exact next a mid own

theorem within (context : String) (h : Keeps x) : Keeps (within context x) := fun work proper =>
  h work proper

theorem attempt (h : Keeps x) : Keeps x.attempt := fun work proper => h work proper

theorem mapM {f : α → Run β} (each : ∀ a, Keeps (f a)) (as : List α) : Keeps (as.mapM f) := by
  induction as with
  | nil => exact .pure []
  | cons a as ih =>
    rw [List.mapM_cons]
    exact (each a).bind fun _ => ih.bind fun _ => .pure _

theorem forM {f : α → Run Unit} (each : ∀ a, Keeps (f a)) (as : List α) : Keeps (as.forM f) := by
  induction as with
  | nil => exact .pure ()
  | cons a as ih => exact (each a).bind fun _ => ih

end Keeps

theorem keeps_writeText (p : Path) (text : String) : Keeps (writeText p text) := by
  intro work proper
  rw [run_writeText]
  cases written : work.tree.write p text.toUTF8 with
  | error e => exact proper
  | ok tree => exact proper_write proper written

theorem keeps_makeDirectories (p : Path) : Keeps (makeDirectories p) := by
  intro work proper
  rw [run_makeDirectories]
  exact proper_makeDirectories proper p

theorem keeps_writeInto (p : Path) (text : String) : Keeps (writeInto p text) :=
  (keeps_writeText p text).within _

theorem keeps_writeFile (p : Path) (text : String) : Keeps (writeFile p text) := by
  rw [writeFile]
  split
  · exact (keeps_makeDirectories _).bind fun _ => keeps_writeInto p text
  · exact keeps_writeInto p text

end Run

theorem keeps_extractFile (options : ExtractOptions) (file : Path) :
    Run.Keeps (extractFile options file) := by
  intro work proper
  rw [run_extractFile]
  cases prepare options work.tree file with
  | error failure => exact proper
  | ok out => exact Run.keeps_writeFile out.path out.code work proper

theorem keeps_writeArtifacts (catalog : Catalog) (globalName : String) (directory : Path) :
    Run.Keeps (writeArtifacts catalog globalName directory) :=
  (Run.keeps_makeDirectories directory).bind fun _ => .forM (fun _ => Run.keeps_writeInto _ _) _

theorem keeps_writeAll (options : ExtractOptions) (catalog : Catalog) :
    Run.Keeps (writeAll options catalog) :=
  .forM (fun directory => keeps_writeArtifacts catalog options.globalName directory) _

end BundlePrep.Job
