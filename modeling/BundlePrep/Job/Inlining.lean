import BundlePrep.Job.Run
import BundlePrep.Json.Read
import BundlePrep.Message.Artifact
import BundlePrep.Message.Inline

/-!
# Inlining the numbers of a project

The numbers that an extraction has written take the place of placeholders in all built files of a
directory. A file that fails is reported and the others are still worked on.
-/

set_option autoImplicit false

namespace BundlePrep.Job

open BundlePrep.FileTree BundlePrep.Json BundlePrep.Message

structure InlineOptions where
  directory : Path
  indexDirectory : Path
  build : Build
  deriving DecidableEq, Repr

structure InlineStats where
  scanned : Nat
  changed : Nat
  replaced : Nat
  blanked : Nat
  missing : List String
  errors : List FileError
  deriving DecidableEq, Repr

def numbersOf? (value : Value) : Option Numbers := do
  let pairs ← (← value.members?).mapM fun (name, number) =>
    number.word?.map fun number => (name, number)
  return .ofPairs pairs

def readNumbers (directory : Path) : Run Numbers := do
  let path := directory.child numbersFile
  let text ← Run.readFile path
  match Value.read? text.toList >>= numbersOf? with
  | some numbers => return numbers
  | none => throw (.malformed s!"placeholder index: {path.text}")

def inlineFile (numbers : Numbers) (build : Build) (file : Path) : Run Inlined := do
  let code ← Run.readFile file
  let result := inlineNumbers numbers build code.toList
  if 0 < result.replaced then Run.writeFile file (String.ofList result.code)
  return result

def inlinedOf : Path × Except Failure Inlined → Option Inlined
  | (_, .ok result) => some result
  | (_, .error _) => none

def inlineErrorOf : Path × Except Failure Inlined → Option FileError
  | (_, .ok _) => none
  | (file, .error failure) => some ⟨file, failure⟩

def sortedOnce (texts : List String) : List String := (texts.mergeSort fun a b => a ≤ b).eraseReps

def inlineFiles (options : InlineOptions) : Run InlineStats := do
  let numbers ← readNumbers options.indexDirectory
  let files ← Run.scanned options.directory [] [] builtExtensions
  let results ← files.mapM fun file => do
    return (file, ← (inlineFile numbers options.build file).attempt)
  let done := results.filterMap inlinedOf
  return {
    scanned := files.length
    changed := (done.filter (0 < ·.replaced)).length
    replaced := (done.map (·.replaced)).foldl (· + ·) 0
    blanked := (done.map (·.blanked)).foldl (· + ·) 0
    missing := sortedOnce (done.flatMap (·.missing))
    errors := results.filterMap inlineErrorOf }

end BundlePrep.Job
