/-!
# Byte offsets of a text

A text is a list of characters, and positions in it are byte offsets of its encoding. Cutting at
an offset fails when the offset lies inside a character or past the end. The two parts of a cut
make up the text again, and the first of them is as long as the offset says.
-/

set_option autoImplicit false

namespace BundlePrep.Text

def byteLength : List Char → Nat
  | [] => 0
  | c :: cs => c.utf8Size + byteLength cs

def splitAt? : Nat → List Char → Option (List Char × List Char)
  | 0, cs => some ([], cs)
  | _ + 1, [] => none
  | n + 1, c :: cs =>
    if c.utf8Size ≤ n + 1 then
      (splitAt? (n + 1 - c.utf8Size) cs).map fun parts => (c :: parts.1, parts.2)
    else none

def slice? (cs : List Char) (start stop : Nat) : Option (List Char) :=
  if stop < start then none
  else do
    let (_, rest) ← splitAt? start cs
    let (inner, _) ← splitAt? (stop - start) rest
    return inner

theorem byteLength_append (xs ys : List Char) :
    byteLength (xs ++ ys) = byteLength xs + byteLength ys := by
  induction xs with
  | nil => simp [byteLength]
  | cons c cs ih => simp [byteLength, ih, Nat.add_assoc]

theorem splitAt?_zero (cs : List Char) : splitAt? 0 cs = some ([], cs) := by
  unfold splitAt?
  rfl

theorem splitAt?_append (xs ys : List Char) :
    splitAt? (byteLength xs) (xs ++ ys) = some (xs, ys) := by
  induction xs with
  | nil => simp [byteLength, splitAt?_zero]
  | cons c cs ih =>
    have positive := c.utf8Size_pos
    obtain ⟨k, hk⟩ : ∃ k, c.utf8Size + byteLength cs = k + 1 :=
      ⟨c.utf8Size + byteLength cs - 1, by omega⟩
    have rest : k + 1 - c.utf8Size = byteLength cs := by omega
    have fits : c.utf8Size ≤ k + 1 := by omega
    simp [byteLength, hk, splitAt?, fits, rest, ih]

theorem splitAt?_eq_some {n : Nat} {cs xs ys : List Char} (h : splitAt? n cs = some (xs, ys)) :
    cs = xs ++ ys ∧ n = byteLength xs := by
  induction cs generalizing n xs with
  | nil =>
    cases n with
    | zero => simp_all [splitAt?, byteLength]
    | succ n => simp [splitAt?] at h
  | cons c cs ih =>
    cases n with
    | zero => simp_all [splitAt?, byteLength]
    | succ n =>
      simp only [splitAt?] at h
      split at h
      · obtain ⟨⟨as, bs⟩, found, same⟩ := Option.map_eq_some_iff.1 h
        obtain ⟨rfl, rfl⟩ := Prod.mk.inj same
        obtain ⟨rfl, size⟩ := ih found
        refine ⟨rfl, ?_⟩
        simp only [byteLength]
        omega
      · simp at h

end BundlePrep.Text
