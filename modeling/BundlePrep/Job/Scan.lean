import BundlePrep.Glob.Expand

/-!
# Scanning for files

The files below a directory, or below some of its directories, are listed in the order of their
paths. Some are left out: by plain paths, with all below them, or by patterns for the path as it is
spelled. Of two spellings of a path the first that is found counts.
-/

set_option autoImplicit false

namespace BundlePrep.Job

open BundlePrep.FileTree BundlePrep.Glob

def sourceExtensions : List String := ["ts", "tsx", "mts", "cts", "js", "jsx", "mjs", "cjs"]

def builtExtensions : List String := ["js", "mjs", "cjs"]

inductive ScanWarning where
  | ignorePattern (text : String) (error : PatternError)
  | includePattern (text : String) (error : PatternError)
  | missingInclude (path : Path)
  | unreadable (path : Path) (error : SystemError)
  deriving DecidableEq, Repr

def ScanWarning.message : ScanWarning → String
  | .ignorePattern text error => s!"Invalid ignore pattern '{text}': {error.message}"
  | .includePattern text error => s!"Invalid glob pattern '{text}': {error.message}"
  | .missingInclude path => s!"Include path does not exist: {path.text}"
  | .unreadable path error =>
    s!"Cannot access path: IO error for operation on {path.text}: {error.message}"

structure Scan where
  files : List Path
  skipped : Nat
  warnings : List ScanWarning
  deriving DecidableEq, Repr

structure Ignores where
  paths : List Path
  patterns : List Pattern
  deriving DecidableEq, Repr

namespace Ignores

def add (base : Path) (text : String) (ignores : Ignores × List ScanWarning) :
    Ignores × List ScanWarning :=
  let (known, warnings) := ignores
  if hasWildcard text then
    match Pattern.parse text with
    | .ok p => ({ known with patterns := p :: known.patterns }, warnings)
    | .error e => (known, .ignorePattern text e :: warnings)
  else ({ known with paths := base.join (.ofText text) :: known.paths }, warnings)

def ofTexts (base : Path) (texts : List String) : Ignores × List ScanWarning :=
  texts.foldr (add base) (⟨[], []⟩, [])

def contains (ignores : Ignores) (path : Path) : Bool :=
  ignores.paths.any path.startsWith || ignores.patterns.any (·.accepts path.text)

end Ignores

def rootsOf (tree : Tree) (base : Path) (text : String) : List Path × List ScanWarning :=
  let path := base.join (.ofText text)
  if hasWildcard text then
    match directories tree path.text with
    | .ok found => (found, [])
    | .error e => ([], [.includePattern text e])
  else if tree.exists? path then ([path], [])
  else ([], [.missingInclude path])

def roots (tree : Tree) (base : Path) (includes : List String) : List Path × List ScanWarning :=
  if includes.isEmpty then ([base], [])
  else
    let found := includes.map (rootsOf tree base)
    (found.flatMap (·.1), found.flatMap (·.2))

def filesBelow (tree : Tree) (root : Path) : Except ScanWarning (List Path) :=
  match tree.find root with
  | .ok item => .ok (item.files root)
  | .error e => .error (.unreadable root e)

/-- Paths in their order, each once. -/
def orderPaths (paths : List Path) : List Path :=
  (paths.mergeSort fun a b => (a.compare b).isLE).eraseRepsBy fun a b => a.compare b == .eq

def hasExtension (extensions : List String) (path : Path) : Bool :=
  path.extension?.any extensions.contains

def scan (tree : Tree) (base : Path) (includes ignores extensions : List String) : Scan :=
  let (ignored, ignoreWarnings) := Ignores.ofTexts base ignores
  let (starts, includeWarnings) := roots tree base includes
  let walks := starts.map (filesBelow tree)
  let found := walks.flatMap fun walk => walk.toOption.getD []
  let unread := walks.filterMap fun | .ok _ => none | .error e => some e
  { files := orderPaths
      (found.filter fun path => !ignored.contains path && hasExtension extensions path)
    skipped := unread.length
    warnings := ignoreWarnings ++ includeWarnings ++ unread }

end BundlePrep.Job
