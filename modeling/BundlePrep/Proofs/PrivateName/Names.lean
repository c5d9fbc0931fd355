import BundlePrep.PrivateName.Short
import Mathlib.Data.List.Basic

/-!
# No short name is handed out twice

The letters of a short name are the digits of its index in a count that has no zero, so the index
can be read back from them.
-/

set_option autoImplicit false

namespace BundlePrep.PrivateName

def digitOf (c : Char) : Nat := letters.toList.idxOf c

/-- The index whose letters, last letter first, are given, counted from one. -/
def countOf : List Char → Nat
  | [] => 0
  | c :: cs => digitOf c + 1 + 52 * countOf cs

theorem digitOf_letter {digit : Nat} (h : digit < 52) : digitOf (letter digit) = digit := by
  have table : ∀ d < 52, digitOf (letter d) = d := by decide +kernel
  exact table digit h

theorem countOf_shortLetters (n : Nat) : countOf (shortLetters n) = n + 1 := by
  induction n using Nat.strongRecOn with
  | _ n ih =>
    by_cases small : n < 52
    · rw [shortLetters_of_lt small, countOf, digitOf_letter small, countOf]
    · have large : 52 ≤ n := by omega
      rw [shortLetters_of_ge large, countOf, digitOf_letter (Nat.mod_lt n (by omega)),
        ih (n / 52 - 1) (by omega)]
      omega

theorem shortLetters_injective : Function.Injective shortLetters := by
  intro m n h
  have counts : m + 1 = n + 1 := by
    rw [← countOf_shortLetters m, ← countOf_shortLetters n, h]
  omega

theorem shortName_injective : Function.Injective shortName := by
  intro m n h
  have chars := congrArg String.toList h
  simp only [shortName, String.toList_ofList, List.cons.injEq, true_and,
    List.reverse_inj] at chars
  exact shortLetters_injective chars

/-! ## Which words are short names -/

theorem letter_digitOf {c : Char} (h : c.isAlpha = true) : digitOf c < 52 ∧ letter (digitOf c) = c := by
  have table : ∀ n < 128, (Char.ofNat n).isAlpha = true →
      digitOf (Char.ofNat n) < 52 ∧ letter (digitOf (Char.ofNat n)) = Char.ofNat n := by
    decide +kernel
  have small : c.toNat < 128 := by
    have below {last : Char} (le : c.val ≤ last.val) (ascii : last.toNat < 128) : c.toNat < 128 :=
      Nat.lt_of_le_of_lt (UInt32.le_iff_toNat_le.1 le) ascii
    rcases Bool.or_eq_true_iff.1 h with upper | lower
    · exact below (of_decide_eq_true upper).2 (by decide)
    · exact below (of_decide_eq_true (Bool.and_eq_true_iff.1 lower).2) (by decide)
  have known := table c.toNat small
  rw [Char.ofNat_toNat] at known
  exact known h

theorem forall_mem_shortLetters {p : Char → Prop} (h : ∀ digit < 52, p (letter digit)) (n : Nat) :
    ∀ c ∈ shortLetters n, p c := by
  fun_induction shortLetters n with
  | case1 n ih =>
    intro c mem
    rcases List.mem_cons.1 mem with rfl | mem
    · exact h _ (Nat.mod_lt n (by omega))
    · split at mem
      · cases mem
      · exact ih ‹_› c mem

theorem isAlpha_shortLetters (n : Nat) : ∀ c ∈ shortLetters n, c.isAlpha = true :=
  forall_mem_shortLetters (by decide +kernel) n

theorem countOf_pos {w : List Char} (nonempty : w ≠ []) : 0 < countOf w := by
  cases w with
  | nil => exact absurd rfl nonempty
  | cons c w =>
    rw [countOf]
    omega

theorem shortLetters_countOf {w : List Char} (nonempty : w ≠ [])
    (letters : ∀ c ∈ w, c.isAlpha = true) : shortLetters (countOf w - 1) = w := by
  induction w with
  | nil => exact absurd rfl nonempty
  | cons c w ih =>
    obtain ⟨small, own⟩ := letter_digitOf (letters c (List.mem_cons_self ..))
    rw [countOf]
    by_cases single : w = []
    · subst single
      rw [countOf, shortLetters_of_lt (by omega)]
      simpa using own
    · have positive := countOf_pos single
      have more := ih single fun d mem => letters d (List.mem_cons_of_mem c mem)
      have digit : (digitOf c + 1 + 52 * countOf w - 1) % 52 = digitOf c := by omega
      have behind : (digitOf c + 1 + 52 * countOf w - 1) / 52 - 1 = countOf w - 1 := by omega
      rw [shortLetters_of_ge (by omega), digit, behind, own, more]

theorem shortName_countOf {w : List Char} (nonempty : w ≠ [])
    (letters : ∀ c ∈ w, c.isAlpha = true) :
    shortName (countOf w.reverse - 1) = String.ofList ('$' :: w) := by
  rw [shortName, shortLetters_countOf (by simpa using nonempty) (by simpa using letters),
    List.reverse_reverse]

end BundlePrep.PrivateName
