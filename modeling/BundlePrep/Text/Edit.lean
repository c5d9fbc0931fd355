import BundlePrep.Text.Offset

/-!
# Edits of a text

An edit replaces the bytes from `start` to `stop` by a new text. A list of edits is applied in one
walk from left to right: an edit that begins before the end of an earlier one is moved up to that
end, and one that reaches past the text stops at its end. The walk fails only when it has to cut
inside a character.
-/

set_option autoImplicit false

namespace BundlePrep.Text

structure Edit where
  start : Nat
  stop : Nat
  content : String
  deriving DecidableEq, Repr

namespace Edit

def insertion (offset : Nat) (content : String) : Edit := ⟨offset, offset, content⟩

/-- The walk over sorted edits: `cursor` is the offset of `rest`, and `size` that of the end. -/
def walk (size cursor : Nat) (rest : List Char) : List Edit → Option (List Char)
  | [] => some rest
  | e :: es => do
    let start := min (max e.start cursor) size
    let stop := min (max e.stop start) size
    let (kept, rest) ← splitAt? (start - cursor) rest
    let (_, rest) ← splitAt? (stop - start) rest
    let tail ← walk size stop rest es
    return kept ++ e.content.toList ++ tail

def applySorted? (text : String) (edits : List Edit) : Option String :=
  (walk (byteLength text.toList) 0 text.toList edits).map String.ofList

def sorted (edits : List Edit) : List Edit := edits.mergeSort fun a b => a.start ≤ b.start

/-- Applies edits in the order of their starts; edits with one start keep their order. -/
def applyAll? (text : String) (edits : List Edit) : Option String :=
  applySorted? text (sorted edits)

theorem walk_nil (size cursor : Nat) (rest : List Char) : walk size cursor rest [] = some rest :=
  rfl

theorem applySorted?_nil (text : String) : applySorted? text [] = some text := by
  simp [applySorted?, walk_nil, String.ofList_toList]

theorem sorted_perm (edits : List Edit) : (sorted edits).Perm edits :=
  List.mergeSort_perm edits _

end Edit

end BundlePrep.Text
