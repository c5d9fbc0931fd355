import BundlePrep.Job.Run
import BundlePrep.Message.Artifact
import BundlePrep.Message.Extract
import BundlePrep.Script.Dialect

/-!
# Extracting the messages of a project

Every source file is written to the output directory with placeholders for its keys. When all files
are done the messages are numbered and the artifacts written. If files fail, the first of them in
the order of the scan decides, and there are no artifacts.
-/

set_option autoImplicit false

namespace BundlePrep.Job

open BundlePrep.FileTree BundlePrep.Message BundlePrep.Script

structure ExtractOptions where
  sourceRoot : Path
  outDir : Path
  extraOutDirs : List Path
  includes : List String
  ignores : List String
  globalName : String
  deriving DecidableEq, Repr

structure ExtractStats where
  scanned : Nat
  /-- Files with a call or more. -/
  transformed : Nat
  entries : Nat
  messages : Nat
  deriving DecidableEq, Repr

def extractFailure (file : String) : ExtractError → Failure
  | .malformed => .malformed file
  | .argument start flavor role cause => ⟨[argumentContext file start flavor role], .literal cause⟩

def relativeTo (root file : Path) : Except Failure Path :=
  match file.below? root with
  | some inner => .ok inner
  | none => .error ((Failure.ofText "prefix not found").within s!"Failed to relativize {file.text}")

def extractFile (options : ExtractOptions) (file : Path) : Run (List Entry) := do
  let code ← Run.readFile file
  let some moduleId := file.moduleId? options.sourceRoot
    | throw (.ofText s!"{file.text} is not under the source root {options.sourceRoot.text}")
  let result ← ExceptT.mk <| pure <|
    (extract (.ofExtension file.extension?) moduleId code).mapError (extractFailure file.text)
  let inner ← ExceptT.mk (pure (relativeTo options.sourceRoot file))
  Run.writeFile (options.outDir.join inner) result.code
  return result.entries

def writeArtifacts (catalog : Catalog) (globalName : String) (directory : Path) : Run Unit := do
  Run.makeDirectories directory
  (catalog.artifacts globalName).forM fun (name, text) =>
    Run.writeInto (directory.child name) text

def finish (options : ExtractOptions) (entries : List Entry) : Run Catalog := do
  let catalog := Catalog.ofCollection (Collection.empty.addAll entries)
  if !catalog.isEmpty then
    (options.outDir :: options.extraOutDirs).forM (writeArtifacts catalog options.globalName)
  return catalog

def extractFiles (options : ExtractOptions) : Run ExtractStats := do
  let files ← Run.scanned options.sourceRoot options.includes options.ignores sourceExtensions
  let results ← files.mapM fun file => do return (file, ← (extractFile options file).attempt)
  let entries ← results.mapM fun (file, result) =>
    Run.within s!"NLS transform failed for {file.text}" (ExceptT.mk (pure result))
  let catalog ← finish options entries.flatten
  return {
    scanned := files.length
    transformed := (entries.filter (!·.isEmpty)).length
    entries := entries.flatten.length
    messages := catalog.size }

end BundlePrep.Job
