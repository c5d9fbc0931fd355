import BundlePrep.FileTree.Path

/-!
# File trees

A file tree has a directory at its root and a directory that it works in, from which relative paths
start. A path is followed step by step: each step but a last name needs a directory to start from,
two dots lead to the directory above, and at the root they lead nowhere. There are no links.
-/

set_option autoImplicit false

namespace BundlePrep.FileTree

inductive Item where
  | file (content : ByteArray)
  | directory (entries : List (String × Item))
  deriving Inhabited

abbrev Location := List String

structure Tree where
  root : Item
  working : Location

inductive SystemError where
  | notFound
  | exists
  | notDirectory
  | isDirectory
  | nameTooLong
  | nulInName
  | notText
  deriving DecidableEq, Repr

def SystemError.message : SystemError → String
  | .notFound => "No such file or directory (os error 2)"
  | .exists => "File exists (os error 17)"
  | .notDirectory => "Not a directory (os error 20)"
  | .isDirectory => "Is a directory (os error 21)"
  | .nameTooLong => "File name too long (os error 36)"
  | .nulInName => "file name contained an unexpected NUL byte"
  | .notText => "stream did not contain valid UTF-8"

namespace Item

def isDirectory : Item → Bool
  | .file _ => false
  | .directory _ => true

def entry? (name : String) : Item → Option Item
  | .file _ => none
  | .directory entries => entries.lookup name

def at? (item : Item) (location : Location) : Option Item :=
  location.foldlM (fun item name => item.entry? name) item

def setEntry (name : String) (item : Item) : List (String × Item) → List (String × Item)
  | [] => [(name, item)]
  | (n, i) :: entries =>
    if n = name then (n, item) :: entries else (n, i) :: setEntry name item entries

def set : Item → Location → Item → Item
  | _, [], new => new
  | .directory entries, [name], new => .directory (setEntry name new entries)
  | .directory entries, name :: location, new =>
    match entries.lookup name with
    | some below => .directory (setEntry name (set below location new) entries)
    | none => .directory entries
  | .file content, _ :: _, _ => .file content

def remove : Item → Location → Item
  | .directory entries, [name] => .directory (entries.filter (·.1 != name))
  | .directory entries, name :: location =>
    match entries.lookup name with
    | some below => .directory (setEntry name (remove below location) entries)
    | none => .directory entries
  | item, _ => item

mutual
def files (path : Path) : Item → List Path
  | .file _ => [path]
  | .directory entries => filesOf path entries

def filesOf (path : Path) : List (String × Item) → List Path
  | [] => []
  | (name, item) :: entries => files (path.child name) item ++ filesOf path entries
end

end Item

def nameLimit : Nat := 255

def pathLimit : Nat := 4096

namespace Tree

def at? (tree : Tree) (location : Location) : Option Item := tree.root.at? location

def isDirectoryAt (tree : Tree) (location : Location) : Bool :=
  (tree.at? location).any Item.isDirectory

def follow (tree : Tree) (location : Location) : List String → Except SystemError Location
  | [] => .ok location
  | s :: ss =>
    if !tree.isDirectoryAt location then .error .notDirectory
    else if Path.passed s then follow tree location ss
    else if s = ".." then follow tree location.dropLast ss
    else if nameLimit < s.utf8ByteSize then .error .nameTooLong
    else if (tree.at? (location ++ [s])).isSome then follow tree (location ++ [s]) ss
    else .error .notFound

/-- Texts that name no place in any tree. -/
def checkPath (p : Path) : Except SystemError Unit :=
  if p.text.toList.contains '\x00' then .error .nulInName
  else if p.text.isEmpty then .error .notFound
  else if pathLimit ≤ p.text.utf8ByteSize then .error .nameTooLong
  else .ok ()

def startOf (tree : Tree) (p : Path) : Location := if p.isAbsolute then [] else tree.working

def locate (tree : Tree) (p : Path) : Except SystemError Location := do
  checkPath p
  follow tree (tree.startOf p) p.segments

def find (tree : Tree) (p : Path) : Except SystemError Item := do
  match tree.at? (← tree.locate p) with
  | some item => return item
  | none => .error .notFound

def exists? (tree : Tree) (p : Path) : Bool := (tree.find p).toOption.isSome

def isDirectory (tree : Tree) (p : Path) : Bool := (tree.find p).toOption.any Item.isDirectory

def read (tree : Tree) (p : Path) : Except SystemError ByteArray := do
  match ← tree.find p with
  | .file content => return content
  | .directory _ => .error .isDirectory

def readText (tree : Tree) (p : Path) : Except SystemError String := do
  match String.fromUTF8? (← tree.read p) with
  | some text => return text
  | none => .error .notText

def setAt (tree : Tree) (location : Location) (item : Item) : Tree :=
  { tree with root := tree.root.set location item }

/-- The directory and the last segment of a path to something that is to be made. Slashes at the end
do not count; a path of slashes alone has no last segment. -/
def lastStep? (tree : Tree) (p : Path) : Except SystemError (Option (Location × String)) := do
  checkPath p
  match p.segments.reverse.dropWhile (· = "") with
  | [] => return none
  | last :: directory =>
    let above ← follow tree (tree.startOf p) directory.reverse
    if !tree.isDirectoryAt above then .error .notDirectory
    else if nameLimit < last.utf8ByteSize then .error .nameTooLong
    else return some (above, last)

def write (tree : Tree) (p : Path) (content : ByteArray) : Except SystemError Tree := do
  match ← tree.lastStep? p with
  | none => .error .isDirectory
  | some (above, last) =>
    if last = "." || last = ".." || p.segments.getLast? = some "" then .error .isDirectory
    else if tree.isDirectoryAt (above ++ [last]) then .error .isDirectory
    else return tree.setAt (above ++ [last]) (.file content)

def makeDirectory (tree : Tree) (p : Path) : Except SystemError Tree := do
  match ← tree.lastStep? p with
  | none => .error .exists
  | some (above, last) =>
    if last = "." || last = ".." || (tree.at? (above ++ [last])).isSome then .error .exists
    else return tree.setAt (above ++ [last]) (.directory [])

def ancestors (p : Path) : List Path := go p.segments.length p
where
  go : Nat → Path → List Path
    | 0, _ => []
    | n + 1, p =>
      match p.parent? with
      | none => []
      | some above => p :: go n above

/-- Makes a directory and those above it that are missing. A path that already leads to a directory
is left alone; the directories that were made before an error stay. -/
def makeDirectories (tree : Tree) (p : Path) : Except SystemError Unit × Tree :=
  climb tree [] (ancestors p)
where
  descend (tree : Tree) : List Path → Except SystemError Unit × Tree
    | [] => (.ok (), tree)
    | p :: ps =>
      match tree.makeDirectory p with
      | .ok tree => descend tree ps
      | .error e => if e = .exists && tree.isDirectory p then descend tree ps else (.error e, tree)
  climb (tree : Tree) (waiting : List Path) : List Path → Except SystemError Unit × Tree
    | [] => descend tree waiting
    | p :: ps =>
      match tree.makeDirectory p with
      | .ok tree => descend tree waiting
      | .error .notFound => climb tree (p :: waiting) ps
      | .error e =>
        if e = .exists && tree.isDirectory p then descend tree waiting else (.error e, tree)

end Tree

end BundlePrep.FileTree
