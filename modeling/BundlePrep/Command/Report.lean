import BundlePrep.Job.Conversion
import BundlePrep.Job.Extraction
import BundlePrep.Job.Inlining

/-!
# Reports

A command ends with a short report on what was done, and lists or counts the files that failed. Its
exit code is 0 if all went well, 1 if files failed, and 2 if the command could not run.
-/

set_option autoImplicit false

namespace BundlePrep.Command

open BundlePrep.FileTree BundlePrep.Job

def successMark : String := "✓"

def failureMark : String := "✘"

def counted (count : Nat) (one many : String) : String :=
  s!"{count} {if count = 1 then one else many}"

def mark (errors : List FileError) : String := if errors.isEmpty then successMark else failureMark

def lines (ls : List String) : String := String.join (ls.map (· ++ "\n"))

def extractLines (stats : ExtractStats) (outDir : Path) (elapsed : String) : List String :=
  let transformed := counted stats.transformed "file" "files"
  let calls := counted stats.entries "localize call" "localize calls"
  let messages := counted stats.messages "message" "messages"
  [s!"{successMark} Transformed {transformed} of {stats.scanned} ({calls}) in {elapsed}",
    if 0 < stats.messages then s!"  {messages} written to {outDir.text}"
    else "  no messages found, artifacts not written"]

/-- The placeholders without a number; only their count unless the command is verbose. -/
def missingLines (missing : List String) (verbose : Bool) : List String :=
  if missing.isEmpty then []
  else
    let count := counted missing.length "placeholder" "placeholders"
    s!"warning: {count} not found in the index" ::
      if verbose then missing.map ("  " ++ ·) else []

def inlineLines (stats : InlineStats) (verbose : Bool) (elapsed : String) : List String :=
  let changed := counted stats.changed "file" "files"
  let replaced := counted stats.replaced "placeholder" "placeholders"
  let blanked := counted stats.blanked "message" "messages"
  let first := s!"{mark stats.errors} Post-processed {changed} of {stats.scanned}: " ++
    s!"{replaced} replaced, {blanked} blanked in {elapsed}"
  first :: missingLines stats.missing verbose

def convertLines (stats : ConvertStats) (elapsed : String) : List String :=
  let converted := counted stats.converted "file" "files"
  let classes := counted stats.classes "class" "classes"
  let names := counted stats.names "private name" "private names"
  let edits := counted stats.edits "edit" "edits"
  let first := s!"{mark stats.errors} Converted {converted} of {stats.scanned}: " ++
    s!"{classes}, {names}, {edits} in {elapsed}"
  let excluded := counted stats.excluded "file" "files"
  first :: if 0 < stats.excluded then [s!"  {excluded} excluded"] else []

def errorLines (errors : List FileError) (verbose : Bool) : List String :=
  if errors.isEmpty then []
  else if verbose then errors.map fun e => s!"error: {e.path.text}: {e.failure.message}"
  else
    let count := counted errors.length "file" "files"
    [s!"warning: {count} could not be processed (use -v for details)"]

inductive Report where
  | nothing
  | extracted (stats : ExtractStats) (outDir : Path)
  | inlined (stats : InlineStats)
  | converted (stats : ConvertStats)
  | convertingDisabled
  | configCreated (name : String)
  | configExists (name : String)
  | failed (failure : Failure)
  deriving DecidableEq, Repr

namespace Report

def output (verbose : Bool) (elapsed : String) : Report → String
  | .extracted stats outDir => lines (extractLines stats outDir elapsed)
  | .inlined stats => lines (inlineLines stats verbose elapsed)
  | .converted stats => lines (convertLines stats elapsed)
  | .convertingDisabled =>
    lines [s!"{successMark} Private-field conversion is disabled (mangle.enabled is false)"]
  | .configCreated name => lines [s!"{successMark} Created {name}"]
  | .nothing | .configExists _ | .failed _ => ""

def errorOutput (verbose : Bool) : Report → String
  | .inlined stats => lines (errorLines stats.errors verbose)
  | .converted stats => lines (errorLines stats.errors verbose)
  | .configExists name => lines [s!"Error: {name} already exists"]
  | .failed failure => lines [s!"Error: {failure.message}"]
  | .nothing | .extracted _ _ | .convertingDisabled | .configCreated _ => ""

def exitCode : Report → Nat
  | .inlined stats => if stats.errors.isEmpty then 0 else 1
  | .converted stats => if stats.errors.isEmpty then 0 else 1
  | .configExists _ => 1
  | .failed _ => 2
  | .nothing | .extracted _ _ | .convertingDisabled | .configCreated _ => 0

end Report

end BundlePrep.Command
