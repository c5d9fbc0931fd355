import BundlePrep.Job.Scan
import BundlePrep.Message.Literal

/-!
# Running jobs

A job works on a file tree. It can fail at any point; what it has written until then stays. The
warnings of its scans are kept beside the tree.
-/

set_option autoImplicit false

namespace BundlePrep.Job

open BundlePrep.FileTree BundlePrep.Message

inductive Cause where
  | literal (error : LiteralError)
  | system (error : SystemError)
  | cutCharacter
  | other (message : String)
  deriving DecidableEq, Repr

def Cause.message : Cause → String
  | .literal error => error.message
  | .system error => error.message
  | .cutCharacter => "byte index is not a char boundary"
  | .other message => message

/-- A cause, with what was tried, from the outermost on. -/
structure Failure where
  contexts : List String
  cause : Cause
  deriving DecidableEq, Repr

namespace Failure

def ofText (message : String) : Failure := ⟨[], .other message⟩

def within (context : String) (f : Failure) : Failure :=
  { f with contexts := context :: f.contexts }

def messages (f : Failure) : List String := f.contexts ++ [f.cause.message]

def message (f : Failure) : String := ": ".intercalate f.messages

def ofTexts : List String → Failure
  | [] => ofText ""
  | [message] => ofText message
  | context :: texts => (ofTexts texts).within context

def malformed (what : String) : Failure := ofText s!"Failed to parse {what}"

end Failure

structure Work where
  tree : Tree
  warnings : List ScanWarning

abbrev Run := ExceptT Failure (StateM Work)

namespace Run

def on {α : Type} (tree : Tree) (run : Run α) : Except Failure α × Work :=
  (ExceptT.run run).run ⟨tree, []⟩

/-- Goes on after a failure, which becomes the result. -/
def attempt {α : Type} (run : Run α) : Run (Except Failure α) := ExceptT.mk (Except.ok <$> run.run)

def within {α : Type} (context : String) (run : Run α) : Run α :=
  ExceptT.mk ((·.mapError (Failure.within context)) <$> run.run)

def ofSystem {α : Type} : Except SystemError α → Run α
  | .ok a => pure a
  | .error e => throw ⟨[], .system e⟩

def tree : Run Tree := do return (← get).tree

def setTree (tree : Tree) : Run Unit := modify fun work => { work with tree }

def scanned (base : Path) (includes ignores extensions : List String) : Run (List Path) := do
  let s := scan (← tree) base includes ignores extensions
  modify fun work => { work with warnings := work.warnings ++ s.warnings }
  return s.files

def readText (p : Path) : Run String := do ofSystem ((← tree).readText p)

def readFile (p : Path) : Run String := within s!"Failed to read file: {p.text}" (readText p)

def writeText (p : Path) (text : String) : Run Unit := do
  setTree (← ofSystem ((← tree).write p text.toUTF8))

def makeDirectories (p : Path) : Run Unit :=
  within s!"Failed to create directory: {p.text}" do
    let (made, tree) := (← tree).makeDirectories p
    setTree tree
    ofSystem made

def writeInto (p : Path) (text : String) : Run Unit :=
  within s!"Failed to write file: {p.text}" (writeText p text)

def writeFile (p : Path) (text : String) : Run Unit := do
  if let some above := p.parent? then makeDirectories above
  writeInto p text

end Run

structure FileError where
  path : Path
  failure : Failure
  deriving DecidableEq, Repr

end BundlePrep.Job
