import BundlePrep.Text.Position

/-!
# Documents

A document is a list of lines, each with the ending it has in the text. Replacing a range keeps the
number of lines and their endings: what is left of the last line joins the first, and the lines
after the first become empty.
-/

set_option autoImplicit false

namespace BundlePrep.Text

inductive LineEnding where
  | none
  | lineFeed
  | carriageReturnLineFeed
  deriving DecidableEq, Repr

def LineEnding.text : LineEnding → List Char
  | .none => []
  | .lineFeed => ['\n']
  | .carriageReturnLineFeed => ['\r', '\n']

structure Line where
  content : List Char
  ending : LineEnding
  deriving DecidableEq, Repr

structure Document where
  lines : List Line
  deriving DecidableEq, Repr

namespace Document

def consChar (c : Char) : List Line → List Line
  | [] => []
  | line :: lines => { line with content := c :: line.content } :: lines

def splitLines : List Char → List Line
  | [] => [⟨[], .none⟩]
  | '\r' :: '\n' :: cs => ⟨[], .carriageReturnLineFeed⟩ :: splitLines cs
  | '\n' :: cs => ⟨[], .lineFeed⟩ :: splitLines cs
  | c :: cs => consChar c (splitLines cs)

def ofText (text : List Char) : Document := ⟨splitLines text⟩

def toText (d : Document) : List Char :=
  d.lines.flatMap fun line => line.content ++ line.ending.text

def lineCount (d : Document) : Nat := d.lines.length

def line? (d : Document) (index : Nat) : Option (List Char) := (d.lines[index]?).map (·.content)

/-- The part of a line in front of a column: all of it if the column is inside a character. -/
def before (column : Nat) (line : List Char) : List Char :=
  ((splitAt? (min column (byteLength line)) line).map (·.1)).getD line

/-- The part of a line from a column on: nothing of it if the column is inside a character. -/
def after (column : Nat) (line : List Char) : List Char :=
  ((splitAt? (min column (byteLength line)) line).map (·.2)).getD []

/-- The line behind a line. Lines behind the end are counted in words of 64 bits. -/
def nextLine (d : Document) (line : Nat) : Nat :=
  if line < d.lineCount then line + 1 else (line + 1) % UInt64.size

def replace (d : Document) (range : Range) (content : List Char) : Document :=
  let head := before range.start.column ((d.line? range.start.line).getD [])
  let tail := after range.stop.column ((d.line? range.stop.line).getD [])
  let last := min range.stop.line (d.lineCount - 1)
  ⟨d.lines.mapIdx fun i line =>
    if d.nextLine range.start.line ≤ i && i ≤ last then { line with content := [] }
    else if i = range.start.line then { line with content := head ++ content ++ tail }
    else line⟩

theorem splitLines_ne_nil (text : List Char) : splitLines text ≠ [] := by
  fun_induction splitLines text with
  | case1 => simp
  | case2 => simp
  | case3 => simp
  | case4 c cs _ _ ih =>
    cases h : splitLines cs with
    | nil => exact absurd h ih
    | cons line lines => simp [consChar]

theorem toText_consChar (c : Char) {lines : List Line} (h : lines ≠ []) :
    toText ⟨consChar c lines⟩ = c :: toText ⟨lines⟩ := by
  cases lines with
  | nil => exact absurd rfl h
  | cons line lines => simp [consChar, toText]

theorem toText_ofText (text : List Char) : (ofText text).toText = text := by
  unfold ofText
  fun_induction splitLines text with
  | case1 => rfl
  | case2 cs ih => simpa [toText, LineEnding.text] using ih
  | case3 cs ih => simpa [toText, LineEnding.text] using ih
  | case4 c cs _ _ ih => rw [toText_consChar c (splitLines_ne_nil cs), ih]

theorem lineCount_replace (d : Document) (range : Range) (content : List Char) :
    (d.replace range content).lineCount = d.lineCount := by
  simp [replace, lineCount]

end Document

end BundlePrep.Text
