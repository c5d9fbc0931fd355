import BundlePrep.Command.Arguments
import BundlePrep.Command.Report
import BundlePrep.Job.Setup

/-!
# Executing commands

A command first finds the root directory of the project and its configuration. Paths of the
configuration and of the command line are relative to that root.
-/

set_option autoImplicit false

namespace BundlePrep.Command

open BundlePrep.FileTree BundlePrep.Job BundlePrep.Message

structure Project where
  root : Path
  config : Config
  deriving DecidableEq, Repr

def workingPath (tree : Tree) : Path :=
  if tree.working.isEmpty then ⟨["", ""]⟩ else ⟨"" :: tree.working⟩

namespace Project

def load (common : Common) : Run Project := do
  let root := (common.root.map Path.ofText).getD (workingPath (← Run.tree))
  return ⟨root, (← loadConfig root).config⟩

def resolve (project : Project) (text : String) : Path :=
  let path := Path.ofText text
  if path.isAbsolute then path
  else path.components.foldl step project.root
where
  step (base : Path) : Component → Path
    | .normal name => base.child name
    | .parent => base.child ".."
    | .root | .current => base

def outDir (project : Project) : Path := project.resolve project.config.outDir

def outDirOr (project : Project) (given : Option String) : Path :=
  (given.map project.resolve).getD project.outDir

end Project

def runExtract (common : Common) (sourceRoot outDir : Option String) (extraOutDirs : List String) :
    Run Report := do
  let project ← Project.load common
  let config := project.config
  let outDir := project.outDirOr outDir
  let stats ← extractFiles {
    sourceRoot := project.resolve (sourceRoot.getD config.sourceRoot)
    outDir
    extraOutDirs := (config.extraOutDirs ++ extraOutDirs).map project.resolve
    includes := config.includes
    ignores := config.ignores
    globalName := config.nlsGlobal }
  return .extracted stats outDir

def runInline (common : Common) (directory indexDirectory : Option String)
    (preserveEnglish : Bool) : Run Report := do
  let project ← Project.load common
  let preserving := preserveEnglish || project.config.preserveEnglish
  return .inlined (← inlineFiles {
    directory := project.outDirOr directory
    indexDirectory := project.outDirOr indexDirectory
    build := if preserving then .preserving else .production })

def runConvert (common : Common) (directory : Option String) (excludes : List String) :
    Run Report := do
  let project ← Project.load common
  if !project.config.mangle.enabled then return .convertingDisabled
  return .converted (← convertFiles {
    directory := project.outDirOr directory
    excludes := project.config.mangle.excludes ++ excludes })

/-- Writes a configuration with the defaults, unless there is one. -/
def runInit : Run Report := do
  let path := Path.ofText configFile
  if (← Run.tree).exists? path then return .configExists configFile
  Run.within s!"Failed to write {configFile}" (Run.writeText path Config.default.toJson.pretty)
  return .configCreated configFile

def Action.run : Action → Run Report
  | .extract common sourceRoot outDir extraOutDirs =>
    runExtract common sourceRoot outDir extraOutDirs
  | .inline common directory indexDirectory preserveEnglish =>
    runInline common directory indexDirectory preserveEnglish
  | .convert common directory excludes => runConvert common directory excludes
  | .init => runInit

/-- How a command ended, with what its scans had to pass over. -/
structure Outcome where
  report : Report
  warnings : List ScanWarning
  verbose : Bool

namespace Outcome

def output (outcome : Outcome) (elapsed : String) : String :=
  outcome.report.output outcome.verbose elapsed

def errorOutput (outcome : Outcome) : String :=
  let warnings := if outcome.verbose then outcome.warnings.map ("warning: " ++ ·.message) else []
  lines warnings ++ outcome.report.errorOutput outcome.verbose

end Outcome

def execute (tree : Tree) : Option Action → Outcome × Tree
  | none => (⟨.nothing, [], false⟩, tree)
  | some command =>
    let (result, work) := command.run.on tree
    let report := match result with
      | .ok report => report
      | .error failure => .failed failure
    (⟨report, work.warnings, command.verbose⟩, work.tree)

end BundlePrep.Command
