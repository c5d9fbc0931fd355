import BundlePrep.Text.Offset

/-!
# Lines and columns

A position is a line and a byte offset in it, both from zero. Only a line feed ends a line. The
position of an offset behind the end of the text counts on in the last line.
-/

set_option autoImplicit false

namespace BundlePrep.Text

structure Position where
  line : Nat
  column : Nat
  deriving DecidableEq, Repr, Inhabited

structure Range where
  start : Position
  stop : Position
  deriving DecidableEq, Repr, Inhabited

/-- The offsets at which the lines after the first begin, for a text that starts at `offset`. -/
def lineStarts (offset : Nat) : List Char → List Nat
  | [] => []
  | c :: cs =>
    if c = '\n' then (offset + 1) :: lineStarts (offset + 1) cs
    else lineStarts (offset + c.utf8Size) cs

/-- The position of an offset, among lines that begin at `start` and at the given offsets. -/
def locate (offset : Nat) : List Nat → Nat → Nat → Position
  | [], line, start => ⟨line, offset - start⟩
  | next :: starts, line, start =>
    if next ≤ offset then locate offset starts (line + 1) next else ⟨line, offset - start⟩

structure LineIndex where
  starts : List Nat
  deriving Repr

namespace LineIndex

def ofText (text : List Char) : LineIndex := ⟨lineStarts 0 text⟩

def position (index : LineIndex) (offset : Nat) : Position := locate offset index.starts 0 0

def range (index : LineIndex) (start stop : Nat) : Range :=
  ⟨index.position start, index.position stop⟩

end LineIndex

theorem length_lineStarts (offset : Nat) (text : List Char) :
    (lineStarts offset text).length = text.count '\n' := by
  induction text generalizing offset with
  | nil => rfl
  | cons c cs ih =>
    by_cases h : c = '\n' <;> simp [lineStarts, h, ih]

end BundlePrep.Text
