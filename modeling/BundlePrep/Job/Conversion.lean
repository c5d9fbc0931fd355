import BundlePrep.Job.Run
import BundlePrep.PrivateName.Convert
import BundlePrep.Script.Dialect

/-!
# Replacing the private names of a project

The private names in all built files of a directory are replaced, but for the files that a pattern
excludes. A file that fails is reported and the others are still worked on. Only a replacement that
would cut a character ends the work, and then the job fails. The files may be worked off side by side,
so that any others can be done by then. What is run here is one possible schedule: two halves, one
behind the other, of which the cut ends its own.
-/

set_option autoImplicit false

namespace BundlePrep.Job

open BundlePrep.FileTree BundlePrep.Glob BundlePrep.PrivateName BundlePrep.Script

structure ConvertOptions where
  directory : Path
  excludes : List String
  deriving DecidableEq, Repr

structure ConvertStats where
  scanned : Nat
  converted : Nat
  excluded : Nat
  classes : Nat
  names : Nat
  edits : Nat
  errors : List FileError
  deriving DecidableEq, Repr

def parseExclude (text : String) : Run Pattern :=
  match Pattern.parse text with
  | .ok p => pure p
  | .error e => throw ((Failure.ofText e.message).within s!"Invalid exclude pattern: \"{text}\"")

def isExcluded (directory : Path) (excludes : List Pattern) (file : Path) : Bool :=
  match file.below? directory with
  | some inner => excludes.any (·.accepts (Path.slashText inner.text))
  | none => false

def convertFailure (file : String) : ConvertError → Failure
  | .malformed => .malformed file
  | .cutCharacter => ⟨[], .cutCharacter⟩

def convertFile (file : Path) : Run Conversion := do
  let code ← Run.readFile file
  let result ← ExceptT.mk <| pure <|
    (convert (.ofExtension file.extension?) code).mapError (convertFailure file.text)
  if 0 < result.edits then Run.writeFile file result.code
  return result

abbrev Converted := Path × Except Failure Conversion

/-- Works off files up to one whose replacement would cut a character. -/
def convertBatch : List Path → Run (List Converted)
  | [] => return []
  | file :: files => do
    match ← (convertFile file).attempt with
    | .error ⟨contexts, .cutCharacter⟩ => throw ⟨contexts, .cutCharacter⟩
    | result => return (file, result) :: (← convertBatch files)

def conversionOf : Converted → Option Conversion
  | (_, .ok result) => some result
  | (_, .error _) => none

def convertErrorOf : Converted → Option FileError
  | (_, .ok _) => none
  | (file, .error failure) => some ⟨file, failure⟩

/-- The two halves are one possible schedule. -/
def convertFiles (options : ConvertOptions) : Run ConvertStats := do
  let excludes ← options.excludes.mapM parseExclude
  let scanned ← Run.scanned options.directory [] [] builtExtensions
  let (excluded, files) := scanned.partition (isExcluded options.directory excludes)
  let (first, second) := files.splitAt (files.length / 2)
  let firstHalf ← (convertBatch first).attempt
  let secondHalf ← (convertBatch second).attempt
  let results := (← ExceptT.mk (pure firstHalf)) ++ (← ExceptT.mk (pure secondHalf))
  let done := results.filterMap conversionOf
  return {
    scanned := scanned.length
    converted := (done.filter (0 < ·.edits)).length
    excluded := excluded.length
    classes := (done.map (·.classes)).foldl (· + ·) 0
    names := (done.map (·.names)).foldl (· + ·) 0
    edits := (done.map (·.edits)).foldl (· + ·) 0
    errors := results.filterMap convertErrorOf }

end BundlePrep.Job
