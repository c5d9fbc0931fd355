import BundlePrep.FileTree.Tree
import BundlePrep.Glob.Pattern

/-!
# Expanding patterns

A pattern that is written like a path is matched segment by segment against a file tree. A segment
without wildcards names one entry, which need not be listed to be found; any other is matched
against the names in a directory. Two stars lead to all directories below. Paths that start from
the working directory are spelled without the dot in front.
-/

set_option autoImplicit false

namespace BundlePrep.Glob

open BundlePrep.FileTree

/-- The patterns of the segments, and the place from which they start. A slash at the end has no
segment behind it. -/
structure SegmentPatterns where
  start : Path
  patterns : List Pattern
  deriving DecidableEq, Repr

def segmentsOf (segments : List String) : List String :=
  if segments.getLast? = some "" then segments.dropLast else segments

def SegmentPatterns.parse (text : String) : Except PatternError SegmentPatterns := do
  let _ ← Pattern.parse text
  let path := Path.ofText text
  if path.isAbsolute then
    return ⟨⟨["", ""]⟩, ← (segmentsOf path.segments.tail).mapM Pattern.parse⟩
  else return ⟨⟨["."]⟩, ← (segmentsOf path.segments).mapM Pattern.parse⟩

def step (directory : Path) (name : String) : Path :=
  if directory.components = [.current] then ⟨[name]⟩ else directory.child name

def namesIn (tree : Tree) (directory : Path) : List String :=
  match tree.find directory with
  | .ok (.directory entries) => (entries.map (·.1)).mergeSort fun a b => a ≤ b
  | _ => []

/-- The special names that a pattern stands for, which no directory lists. It has to begin with a
dot itself. -/
def specialNames (p : Pattern) : List String :=
  if p.tokens.head? = some (.char '.') then ["..", "."].filter p.accepts else []

def dropRecursive : List Pattern → List Pattern
  | p :: ps => if p.isRecursive then dropRecursive ps else p :: ps
  | [] => []

/-- The paths below a directory that match patterns, in the order in which they are found. The fuel
bounds the steps on the way to a path: each lengthens the path or uses up a pattern. -/
def below (tree : Tree) : Nat → List Pattern → Path → List Path
  | 0, _, _ => []
  | _ + 1, [], _ => []
  | fuel + 1, p :: ps, directory =>
    /- An entry that is known to match the first pattern. -/
    let found (path : Path) : List Path := if ps.isEmpty then [path] else below tree fuel ps path
    match p.literal? with
    | some name =>
      let path := if directory.components = [.current] then Path.ofText name
        else directory.join (Path.ofText name)
      let special := name = "." || name = ".."
      if (if special then tree.isDirectory directory else tree.exists? path) then found path else []
    | none =>
      let special := (specialNames p).flatMap fun name => found (directory.child name)
      let listed := (namesIn tree directory).flatMap fun name =>
        let path := step directory name
        if p.isRecursive then
          let rest := dropRecursive ps
          if tree.isDirectory path then
            let deeper := below tree fuel (p :: rest) path
            match rest with
            | [] => path :: deeper
            | q :: qs => matched fuel q qs path name ++ deeper
          else
            match rest with
            | [] => []
            | q :: qs => matched fuel q qs path name
        else matched fuel p ps path name
      special ++ listed
where
  matched (fuel : Nat) (p : Pattern) (ps : List Pattern) (path : Path) (name : String) :
      List Path :=
    if !p.accepts name then []
    else if ps.isEmpty then [path]
    else below tree fuel ps path

def directories (tree : Tree) (text : String) : Except PatternError (List Path) := do
  let s ← SegmentPatterns.parse text
  let found := below tree (pathLimit + s.patterns.length) s.patterns s.start
  return found.filter tree.isDirectory

end BundlePrep.Glob
