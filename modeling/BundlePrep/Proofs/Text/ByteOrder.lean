import BundlePrep.Text.Offset
import Mathlib.Data.List.Basic
import Mathlib.Data.String.Basic

/-!
# The order of texts

Texts are ordered by their code points. That is the order of their encodings, byte by byte: the
encoding of a character is told from that of a greater one inside of both.
-/

set_option autoImplicit false

namespace BundlePrep.Text

/-- The bytes of a text. -/
def bytes (text : String) : List UInt8 := text.toUTF8.data.toList

theorem bytes_eq (text : String) : bytes text = text.toList.flatMap String.utf8EncodeChar := by
  conv => lhs; rw [← String.ofList_toList (s := text)]
  rw [bytes, String.toUTF8_eq_toByteArray, String.toByteArray_ofList, List.utf8Encode,
    List.data_toByteArray]

theorem length_encoded (cs : List Char) :
    (cs.flatMap String.utf8EncodeChar).length = byteLength cs := by
  induction cs with
  | nil => rfl
  | cons c cs ih =>
    rw [List.flatMap_cons, List.length_append, ih, String.length_utf8EncodeChar, byteLength]

theorem getElem?_toUTF8 (text : String) (i : Nat) : text.toUTF8[i]? = (bytes text)[i]? := by
  rw [bytes]
  by_cases inside : i < text.toUTF8.size
  · rw [getElem?_pos text.toUTF8 i inside, getElem?_pos _ i (by simpa using inside)]
    rfl
  · rw [getElem?_neg text.toUTF8 i inside, getElem?_neg _ i (by simpa using inside)]

theorem encode_lt {c d : Char} (h : c < d) (x y : List UInt8) :
    String.utf8EncodeChar c ++ x < String.utf8EncodeChar d ++ y := by
  have small : c.val.toNat < d.val.toNat := h
  have valid : d.val.toNat < 0x110000 := by
    have := d.valid
    simp only [UInt32.isValidChar, Nat.isValidChar] at this
    omega
  simp only [String.utf8EncodeChar]
  split_ifs <;>
    simp only [List.cons_append, List.nil_append, List.cons_lt_cons_iff, UInt8.lt_iff_toNat_lt,
      ← UInt8.toNat_inj, UInt8.toNat_ofNat'] <;>
    simp (disch := omega) only [Nat.mod_eq_of_lt] <;> omega

theorem utf8EncodeChar_ne_nil (c : Char) : String.utf8EncodeChar c ≠ [] := by
  simp only [String.utf8EncodeChar]
  split_ifs <;> simp

theorem eq_of_mem_encode {c : Char} {b : UInt8} (mem : b ∈ String.utf8EncodeChar c)
    (small : b.toNat < 128) : c = Char.ofNat b.toNat := by
  have value : c.val.toNat = c.toNat := rfl
  have valid : c.val.toNat < 0x110000 := by
    have := c.valid
    simp only [UInt32.isValidChar, Nat.isValidChar] at this
    omega
  simp only [String.utf8EncodeChar] at mem
  split_ifs at mem <;>
    simp only [List.mem_cons, List.not_mem_nil, or_false, ← UInt8.toNat_inj, UInt8.toNat_ofNat']
      at mem <;>
    simp (disch := omega) only [Nat.mod_eq_of_lt] at mem
  · rw [mem, value, Char.ofNat_toNat]
  all_goals omega

theorem flatMap_encode_lt {cs ds : List Char} (h : cs < ds) :
    cs.flatMap String.utf8EncodeChar < ds.flatMap String.utf8EncodeChar := by
  induction ds generalizing cs with
  | nil => exact absurd h (List.not_lt_nil cs)
  | cons d ds ih =>
    cases cs with
    | nil =>
      rw [List.flatMap_nil, List.flatMap_cons]
      obtain ⟨b, bs, encoded⟩ := List.exists_cons_of_ne_nil (utf8EncodeChar_ne_nil d)
      rw [encoded]
      exact List.nil_lt_cons b _
    | cons c cs =>
      rw [List.flatMap_cons, List.flatMap_cons]
      rcases List.cons_lt_cons_iff.1 h with before | ⟨rfl, behind⟩
      · exact encode_lt before _ _
      · exact List.append_left_lt (ih behind)

theorem bytes_lt_iff {a b : String} : bytes a < bytes b ↔ a < b := by
  rw [String.lt_iff_toList_lt, bytes_eq, bytes_eq]
  constructor
  · intro before
    rcases lt_trichotomy a.toList b.toList with less | same | greater
    · exact less
    · rw [same] at before
      exact absurd before (List.lt_irrefl _)
    · exact absurd before (List.lt_asymm (flatMap_encode_lt greater))
  · exact flatMap_encode_lt

theorem bytes_inj {a b : String} : bytes a = bytes b ↔ a = b := by
  constructor
  · intro same
    rcases lt_trichotomy a b with less | equal | greater
    · have before := bytes_lt_iff.2 less
      rw [same] at before
      exact absurd before (List.lt_irrefl _)
    · exact equal
    · have before := bytes_lt_iff.2 greater
      rw [same] at before
      exact absurd before (List.lt_irrefl _)
  · exact congrArg bytes

end BundlePrep.Text
