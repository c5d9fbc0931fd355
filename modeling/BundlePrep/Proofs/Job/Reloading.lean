import BundlePrep.Proofs.Job.Effects
import BundlePrep.Proofs.Message.Reread

/-!
# Numbers are loaded as they were written

The file of the numbers is the last artifact. From the directory that the artifacts of a catalog were
written to its own numbers are read.
-/

set_option autoImplicit false

namespace BundlePrep.Job

open BundlePrep.FileTree BundlePrep.FileTree.Tree BundlePrep.Json BundlePrep.Message

theorem number_lt_size {catalog : Catalog} {pair : String × Nat} (h : pair ∈ catalog.numbers) :
    pair.2 < catalog.size := by
  rw [numbers_eq] at h
  have listed := List.mem_zipIdx_iff_getElem?.1 (mem_of_mem_ofPairs h)
  simpa [Catalog.size] using (List.getElem?_eq_some_iff.1 listed).1

theorem run_readNumbers {directory : Path} {work : Work} {text : String}
    (stored : work.tree.read (directory.child numbersFile) = .ok text.toUTF8) :
    (readNumbers directory).run.run work =
      match Value.read? text.toList >>= numbersOf? with
      | some numbers => (.ok numbers, work)
      | none => (.error (.malformed s!"placeholder index: {(directory.child numbersFile).text}"),
          work) := by
  rw [readNumbers, Run.run_bind, Run.run_readFile, readText_of_read stored]
  simp only [Except.mapError]
  cases Value.read? text.toList >>= numbersOf? <;> rfl

/-- The numbers are read as they were written, if they fit into words. They do if there are not more
messages than words. -/
theorem readNumbers_writeArtifacts {catalog : Catalog} {globalName : String} {directory : Path}
    {before after : Work}
    (written : (writeArtifacts catalog globalName directory).run.run before = (.ok (), after)) :
    ((readNumbers directory).run.run after = (.ok catalog.numbers, after) ↔
        ∀ pair ∈ catalog.numbers, pair.2 < UInt64.size) ∧
      (catalog.size ≤ UInt64.size →
        (readNumbers directory).run.run after = (.ok catalog.numbers, after)) := by
  have stored := ((writes_writeArtifacts catalog globalName directory).done written).read_last
  have loaded : (readNumbers directory).run.run after = (.ok catalog.numbers, after) ↔
      ∀ pair ∈ catalog.numbers, pair.2 < UInt64.size := by
    rw [run_readNumbers stored, read?_toJson]
    split_ifs with fits
    · exact iff_of_true rfl fits
    · exact iff_of_false (fun same => nomatch (Prod.mk.inj same).1) fits
  refine ⟨loaded, fun small => loaded.2 fun pair mem => ?_⟩
  exact lt_of_lt_of_le (number_lt_size mem) small

/-! ## Quotes, backslashes and controls -/

def oddCatalog : Catalog :=
  ⟨[.ofCall .keep "m\\" (.plain "\"\\n\"") "a", .ofCall .blank "\x01" (.plain "é😀\n") "b"]⟩

def oddWork : Work := ⟨⟨.directory [], []⟩, []⟩

def oddWritten : Except Failure Unit × Work :=
  (writeArtifacts oddCatalog "NLS" ⟨["out"]⟩).run.run oddWork

def oddNumbers : Numbers := [("%%NLS2:m\\#\"\\n\"%%", 0), ("%%NLS:\x01#é😀\n%%", 1)]

theorem readNumbers_odd : oddWritten.1 = .ok () ∧ oddCatalog.size ≤ UInt64.size ∧
    ((readNumbers ⟨["out"]⟩).run.run oddWritten.2).1 = .ok oddNumbers := by
  have written : oddWritten.1 = .ok () := by decide +kernel
  have small : oddCatalog.size ≤ UInt64.size := by decide
  have loaded := (@readNumbers_writeArtifacts oddCatalog "NLS" ⟨["out"]⟩ oddWork oddWritten.2
    (Prod.ext written rfl)).2 small
  have sorted : oddNumbers.Sorted := List.pairwise_pair.2 (by decide +kernel)
  have numbers : oddCatalog.numbers = oddNumbers := sorted.ofPairs_eq
  exact ⟨written, small, by rw [loaded, numbers]⟩

end BundlePrep.Job
