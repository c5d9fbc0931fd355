import BundlePrep.Command.Execute
import BundlePrep.FileTree.Snapshot

/-!
# The program

The program reads the paths of a project's files from the standard input, one on each line, and
works on these files: whatever is not named there it takes for missing. Files that the command
creates or changes are written when it has ended.
-/

set_option autoImplicit false

namespace BundlePrep.Main

open BundlePrep.Command BundlePrep.FileTree

def usage : String :=
  "Usage: bundleprep nls [--root DIR] [-v] [--source-root DIR] [--out-dir DIR]\n" ++
  "           [--extra-out-dir DIR]\n" ++
  "       bundleprep postprocess [--root DIR] [-v] [--dir DIR] [--index-dir DIR]\n" ++
  "           [--preserve-english]\n" ++
  "       bundleprep mangle [--root DIR] [-v] [--dir DIR] [--exclude GLOB]\n" ++
  "       bundleprep init\n" ++
  "The files of the project are listed on the standard input.\n"

def secondsText (milliseconds : Nat) : String :=
  let hundredths := (milliseconds + 5) / 10
  let rest := hundredths % 100
  s!"{hundredths / 100}." ++ (if rest < 10 then "0" else "") ++ s!"{rest}s"

partial def readLines (input : IO.FS.Stream) : IO (List String) := do
  let line ← input.getLine
  if line.isEmpty then return []
  return String.ofList (line.toList.filter (· ≠ '\n')) :: (← readLines input)

def loadFile (tree : Tree) (path : String) : IO Tree := do
  return tree.place (.ofText path) (← IO.FS.readBinFile path)

def writeChange (path : Path) (content : ByteArray) : IO Unit := do
  if let some above := path.parent? then
    if above.text != "" then IO.FS.createDirAll above.text
  IO.FS.writeBinFile path.text content

def runCommand (command : Option Action) : IO UInt32 := do
  let started ← IO.monoMsNow
  let working := (Path.ofText (← IO.currentDir).toString).segments.filter (· ≠ "")
  let before ← (← readLines (← IO.getStdin)).foldlM loadFile (.empty working)
  let (outcome, after) := execute before command
  for (path, content) in before.changes after [] do
    writeChange ⟨"" :: path.segments⟩ content
  IO.print (outcome.output (secondsText ((← IO.monoMsNow) - started)))
  IO.eprint outcome.errorOutput
  return outcome.report.exitCode.toUInt32

end BundlePrep.Main

open BundlePrep.Command BundlePrep.Main in
def main (args : List String) : IO UInt32 := do
  match readArguments args with
  | .ok none | .error .displayHelp =>
    IO.print usage
    return 0
  | .error .displayVersion =>
    IO.println "bundleprep 0.1.0"
    return 0
  | .error _ =>
    IO.eprint usage
    return 2
  | .ok command => runCommand command
