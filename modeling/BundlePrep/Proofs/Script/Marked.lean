import BundlePrep.Proofs.Text.Portion
import BundlePrep.Script.Program
import BundlePrep.Text.Search

/-!
# Scripts with a mark of the byte order

A script with a mark in front has the program of the script without it, and the offsets of that
program are those in the script without it. In the script with the mark, what stands at such an
offset begins three bytes further in front.
-/

set_option autoImplicit false

namespace BundlePrep.Script

open BundlePrep.Text

/-- A text with a mark of the byte order in front. -/
def marked (code : String) : String := String.ofList ('\ufeff' :: code.toList)

/-- Two outcomes that both fail, or that both succeed with related results. -/
def Agree {ε α : Type} (related : α → α → Prop) : Except ε α → Except ε α → Prop
  | .ok a, .ok b => related a b
  | .error _, .error _ => True
  | _, _ => False

theorem toList_marked (code : String) : (marked code).toList = '\ufeff' :: code.toList :=
  String.toList_ofList

theorem parse?_marked (dialect : Dialect) {code : String}
    (plain : code.toList.head? ≠ some '\ufeff') :
    Program.parse? dialect (marked code).toList = Program.parse? dialect code.toList := by
  rw [toList_marked]
  cases text : code.toList with
  | nil => rfl
  | cons c cs =>
    have other : c ≠ '\ufeff' := by simpa [text] using plain
    unfold Program.parse?
    split
    next rest same =>
      obtain rfl := (List.cons.inj same).2
      split
      next rest same => exact absurd (List.cons.inj same).1 other
      next => rfl
    next none => exact (none _ rfl).elim

theorem contains_marked {c : Char} (other : c ≠ '\ufeff') (code : String) :
    (marked code).toList.contains c = code.toList.contains c := by
  simp [toList_marked, other]

theorem occursIn_marked {c : Char} (other : c ≠ '\ufeff') (part : List Char) (code : String) :
    occursIn (c :: part) (marked code).toList = occursIn (c :: part) code.toList := by
  simp [toList_marked, occursIn, other]

theorem exists_three {code : String} {front rest kept behind : List Char}
    (whole : code.toList = front ++ rest) (cut : (marked code).toList = kept ++ behind)
    (le : byteLength kept ≤ byteLength front) :
    ∃ gap, '\ufeff' :: front = kept ++ gap ∧ behind = gap ++ rest ∧
      byteLength kept + byteLength gap = byteLength front + 3 := by
  have same : kept ++ behind = ('\ufeff' :: front) ++ rest := by
    rw [← cut, toList_marked, whole, List.cons_append]
  have size : byteLength ('\ufeff' :: front) = byteLength front + 3 := by
    rw [byteLength, Nat.add_comm]
    rfl
  obtain ⟨gap, parts, more⟩ := exists_between same (by omega)
  refine ⟨gap, parts, more, ?_⟩
  rw [← size, parts, byteLength_append]

end BundlePrep.Script
