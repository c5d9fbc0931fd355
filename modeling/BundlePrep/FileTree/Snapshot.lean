import BundlePrep.FileTree.Tree

/-!
# Snapshots

A tree can be built up file by file, and two states of it can be compared by their files.
-/

set_option autoImplicit false

namespace BundlePrep.FileTree.Tree

def empty (working : Location) : Tree :=
  ⟨working.foldr (fun name item => .directory [(name, item)]) (.directory []), working⟩

/-- Puts a file into a tree, with the directories above it. Where that is impossible nothing is
put. -/
def place (tree : Tree) (path : Path) (content : ByteArray) : Tree :=
  let tree := (path.parent?.map fun above => (tree.makeDirectories above).2).getD tree
  (tree.write path content).toOption.getD tree

def placeDirectory (tree : Tree) (path : Path) : Tree := (tree.makeDirectories path).2

def remove (tree : Tree) (path : Path) : Tree :=
  match tree.locate path with
  | .ok location => { tree with root := tree.root.remove location }
  | .error _ => tree

mutual
def contents (path : List String) : Item → List (List String × ByteArray)
  | .file content => [(path, content)]
  | .directory entries => contentsOf path entries

def contentsOf (path : List String) : List (String × Item) → List (List String × ByteArray)
  | [] => []
  | (name, item) :: entries => contents (path ++ [name]) item ++ contentsOf path entries
end

def filesAt (tree : Tree) (location : Location) : List (List String × ByteArray) :=
  ((tree.at? location).map (contents [])).getD []

def changes (before after : Tree) (location : Location) : List (Path × ByteArray) :=
  let old := before.filesAt location
  let new := (after.filesAt location).filter fun (path, content) => old.lookup path != some content
  (new.map fun (path, content) => (Path.mk path, content)).mergeSort fun a b => a.1.text ≤ b.1.text

end BundlePrep.FileTree.Tree
