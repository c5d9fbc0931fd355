import BundlePrep.Job.Config
import BundlePrep.Job.Run
import BundlePrep.Text.Debug

/-!
# Finding the configuration

The configuration of a project lies in the directory in which the search starts or in the nearest
one above it. The search does not leave a repository: it ends at a directory that holds `.git`.
-/

set_option autoImplicit false

namespace BundlePrep.Job

open BundlePrep.FileTree BundlePrep.Text

def configFile : String := ".nlsmanglerc.json"

def searchConfig (tree : Tree) : Nat → Path → Option Path
  | 0, _ => none
  | steps + 1, directory =>
    if tree.exists? (directory.child configFile) then some (directory.child configFile)
    else if tree.exists? (directory.child ".git") then none
    else directory.parent? >>= searchConfig tree steps

/-- The configuration file for a directory. Each step up takes a component off the path. -/
def findConfig (tree : Tree) (start : Path) : Option Path :=
  searchConfig tree (start.segments.length + 2) start

structure LoadedConfig where
  config : Config
  fromFile : Bool
  deriving DecidableEq, Repr

def loadConfig (start : Path) : Run LoadedConfig := do
  match findConfig (← Run.tree) start with
  | none => return ⟨.default, false⟩
  | some path =>
    let text ← Run.within s!"Failed to read config file: {path.text}" (Run.readText path)
    match Config.read? text with
    | none => throw (.malformed s!"config file: {debugQuoted path.text}")
    | some config =>
      match config.check with
      | .error e => throw (.ofTexts e.messages)
      | .ok _ => return ⟨config, true⟩

end BundlePrep.Job
