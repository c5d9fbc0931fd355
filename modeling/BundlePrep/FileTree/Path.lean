/-!
# Paths

A path is the list of its segments between slashes: `/a` has an empty first segment, `a/` an empty
last one, and the empty path has one empty segment. Empty segments and single dots are passed over,
but for the slash or the dot at the beginning. What is left are the components, by which paths are
compared; the spelling is kept.
-/

set_option autoImplicit false

namespace BundlePrep.FileTree

structure Path where
  segments : List String
  deriving DecidableEq, Repr

inductive Component where
  | root
  | current
  | parent
  | normal (name : String)
  deriving DecidableEq, Repr

namespace Path

def cut : List Char → List (List Char)
  | [] => [[]]
  | '/' :: cs => [] :: cut cs
  | c :: cs =>
    match cut cs with
    | [] => [[c]]
    | s :: ss => (c :: s) :: ss

def ofText (text : String) : Path := ⟨(cut text.toList).map String.ofList⟩

def text (p : Path) : String := "/".intercalate p.segments

/-- What stands in front of the segments that are passed over, and the other segments. -/
def parts (p : Path) : List String × List String :=
  match p.segments with
  | "" :: s :: ss => ([""], s :: ss)
  | "." :: ss => (["."], ss)
  | ss => ([], ss)

def ofParts : List String → List String → Path
  | [], [] => ⟨[""]⟩
  | [""], [] => ⟨["", ""]⟩
  | first, [] => ⟨first⟩
  | first, ss => ⟨first ++ ss⟩

def isAbsolute (p : Path) : Bool := p.parts.1 == [""]

def passed (segment : String) : Bool := segment == "" || segment == "."

def componentOf (segment : String) : Component :=
  if segment = ".." then .parent else .normal segment

def firstComponent : List String → List Component
  | [""] => [.root]
  | ["."] => [.current]
  | _ => []

def components (p : Path) : List Component :=
  firstComponent p.parts.1 ++ (p.parts.2.filter (!passed ·)).map componentOf

def trimEnd (segments : List String) : List String := (segments.reverse.dropWhile passed).reverse

def dropComponents : Nat → List String → List String
  | 0, ss => ss.dropWhile passed
  | _ + 1, [] => []
  | n + 1, s :: ss => if passed s then dropComponents (n + 1) ss else dropComponents n ss

def startsWith (p base : Path) : Bool := base.components.isPrefixOf p.components

def below? (p base : Path) : Option Path :=
  if !p.startsWith base then none
  else
    let (first, rest) := p.parts
    match base.components.length with
    | 0 => some (ofParts first (trimEnd rest))
    | n + 1 =>
      let consumed := n + 1 - (firstComponent first).length
      some (ofParts [] (trimEnd (dropComponents consumed rest)))

def parent? (p : Path) : Option Path :=
  let (first, rest) := p.parts
  match (trimEnd rest).reverse with
  | _ :: ss => some (ofParts first (trimEnd ss.reverse))
  | [] => if first = ["."] then some ⟨[""]⟩ else none

/-- A path seen from another one. An absolute path stays as it is. -/
def join (base p : Path) : Path :=
  if p.isAbsolute then p
  else
    match base.segments.reverse with
    | "" :: ss => ⟨ss.reverse ++ p.segments⟩
    | ss => ⟨ss.reverse ++ p.segments⟩

def child (base : Path) (name : String) : Path := base.join ⟨[name]⟩

def fileName? (p : Path) : Option String :=
  match p.components.getLast? with
  | some (.normal name) => some name
  | _ => none

/-- A name before and behind its last dot. A dot at the beginning does not count. -/
def splitName (name : String) : String × Option String :=
  let behind := name.toList.reverse.takeWhile (· ≠ '.')
  match name.toList.reverse.dropWhile (· ≠ '.') with
  | _ :: c :: cs => (String.ofList (c :: cs).reverse, some (String.ofList behind.reverse))
  | _ => (name, none)

def extension? (p : Path) : Option String := p.fileName? >>= fun name => (splitName name).2

/-- A name without its extension. Of one that begins with two dots nothing but these is left. -/
def stem (name : String) : String :=
  match splitName name with
  | (".", some _) => ".."
  | (before, some _) => before
  | (_, none) => name

def compareComponents : Component → Component → Ordering
  | .normal a, .normal b => Ord.compare a b
  | a, b => Ord.compare (rank a) (rank b)
where
  rank : Component → Nat
    | .root => 0
    | .current => 1
    | .parent => 2
    | .normal _ => 3

def compareLists : List Component → List Component → Ordering
  | [], [] => .eq
  | [], _ :: _ => .lt
  | _ :: _, [] => .gt
  | a :: as, b :: bs => (compareComponents a b).then (compareLists as bs)

def compare (p q : Path) : Ordering := compareLists p.components q.components

def slashText (text : String) : String :=
  String.ofList (text.toList.map fun c => if c = '\\' then '/' else c)

/-- The name by which a file's module is known: its path below the root of the sources, without the
extension. -/
def moduleId? (file root : Path) : Option String := do
  let inner ← file.below? root
  let names := inner.components.filterMap name?
  let names := if inner.fileName?.isSome then names.dropLast ++ lastName names else names
  if names.isEmpty then none else some ("/".intercalate names)
where
  name? : Component → Option String
    | .normal name => some name
    | _ => none
  lastName (names : List String) : List String :=
    ((names.getLast?.map stem).toList).filter (· ≠ "..")

theorem cut_ne_nil (cs : List Char) : cut cs ≠ [] := by
  fun_induction cut cs <;> simp

end Path

end BundlePrep.FileTree
