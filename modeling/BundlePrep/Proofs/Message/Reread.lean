import BundlePrep.Job.Inlining
import BundlePrep.Proofs.Json.Printing
import BundlePrep.Proofs.Message.Ordering
import Mathlib.Data.List.Nodup

/-!
# Numbers read back

The numbers of a catalog stand in the order of their placeholders, each placeholder once. They are
printed as an object, from which the same numbers are read if none is too large for a word.
-/

set_option autoImplicit false

namespace BundlePrep.Message

open BundlePrep.Job BundlePrep.Json

def Numbers.Sorted (numbers : Numbers) : Prop := numbers.Pairwise fun a b => a.1 < b.1

theorem sorted_mergeSort (pairs : List (String × Nat)) :
    (pairs.mergeSort fun a b => a.1 ≤ b.1).Pairwise fun a b => a.1 ≤ b.1 := by
  refine (List.pairwise_mergeSort (fun a b c ab bc => ?_) (fun a b => ?_) pairs).imp
    fun le => of_decide_eq_true le
  · exact decide_eq_true (le_trans (of_decide_eq_true ab) (of_decide_eq_true bc))
  · simpa using le_total a.1 b.1

theorem sorted_ofPairs (pairs : List (String × Nat)) : (Numbers.ofPairs pairs).Sorted := by
  refine @pairwise_eraseRepsBy _ _ (fun a b => a.1 ≤ b.1) _ (fun a b le other => ?_)
    (fun a b c => lt_of_lt_of_le) _ (sorted_mergeSort pairs.reverse)
  exact lt_of_le_of_ne le (by simpa using other)

theorem Numbers.Sorted.ofPairs_eq {numbers : Numbers} (h : numbers.Sorted) :
    Numbers.ofPairs numbers = numbers := by
  have perm : (numbers.reverse.mergeSort fun a b => a.1 ≤ b.1).Perm numbers :=
    (List.mergeSort_perm _ _).trans numbers.reverse_perm
  have distinct : (numbers.map Prod.fst).Nodup := List.pairwise_map.2 (h.imp fun lt => lt.ne)
  have same : (numbers.reverse.mergeSort fun a b => a.1 ≤ b.1) = numbers := by
    refine perm.eq_of_pairwise (fun a b memA memB ab ba => ?_) (sorted_mergeSort _)
      (h.imp fun lt => lt.le)
    exact List.inj_on_of_nodup_map distinct (perm.mem_iff.1 memA) memB (le_antisymm ab ba)
  rw [Numbers.ofPairs, same]
  exact eraseRepsBy_eq_self (h.imp fun lt => by simpa using lt.ne)

theorem foldl_toDigits (n : Nat) :
    (Nat.toDigits 10 n).foldl (fun n c => 10 * n + (c.toNat - 48)) 0 = n :=
  Nat.ofDigitChars_toDigits (by decide) (by decide)

theorem word?_ofNat (n : Nat) : (Value.ofNat n).word? = if n < UInt64.size then some n else none := by
  have digits : (Nat.toDigits 10 n).all Char.isDigit = true :=
    List.all_eq_true.2 Script.isDigit_of_mem_toDigits
  rw [Value.ofNat, Value.word?, if_pos digits, foldl_toDigits]

theorem members?_ofMembers (members : List (String × Value)) :
    (Value.ofMembers members).members? = some members := by
  rw [Value.ofMembers, Value.members?]
  induction members with
  | nil => rfl
  | cons m members ih =>
    rw [List.map_cons, List.mapM_cons, ih]
    simp [decode?_encode]

theorem numbersOf?_toJson (numbers : Numbers) :
    numbersOf? numbers.toJson =
      if ∀ pair ∈ numbers, pair.2 < UInt64.size then some (.ofPairs numbers) else none := by
  have pairs : (numbers.map fun pair => (pair.1, Value.ofNat pair.2)).mapM
      (fun pair => pair.2.word?.map fun number => (pair.1, number)) =
        if ∀ pair ∈ numbers, pair.2 < UInt64.size then some numbers else none := by
    induction numbers with
    | nil => rfl
    | cons pair numbers ih =>
      rw [List.map_cons, List.mapM_cons, ih]
      simp only [List.forall_mem_cons, word?_ofNat]
      by_cases first : pair.2 < UInt64.size
      · by_cases rest : ∀ pair ∈ numbers, pair.2 < UInt64.size
        · rw [if_pos first, if_pos rest, if_pos ⟨first, rest⟩]
          rfl
        · rw [if_pos first, if_neg rest, if_neg (not_and_of_not_right _ rest)]
          rfl
      · rw [if_neg first, if_neg (not_and_of_not_left _ first)]
        rfl
  rw [Numbers.toJson, numbersOf?, members?_ofMembers]
  show ((numbers.map fun pair => (pair.1, Value.ofNat pair.2)).mapM
    (fun pair => pair.2.word?.map fun number => (pair.1, number)) >>=
      fun pairs => some (Numbers.ofPairs pairs)) = _
  rw [pairs]
  split_ifs <;> rfl

theorem sound_toJson (numbers : Numbers) : numbers.toJson.Sound := by
  refine sound_ofMembers fun m mem => ?_
  obtain ⟨pair, -, rfl⟩ := List.mem_map.1 mem
  exact sound_ofNat pair.2

theorem read?_toJson (catalog : Catalog) :
    (Value.read? catalog.numbers.toJson.pretty.toList >>= numbersOf?) =
      if ∀ pair ∈ catalog.numbers, pair.2 < UInt64.size then some catalog.numbers else none := by
  rw [read?_pretty (sound_toJson _), Option.bind_eq_bind, Option.bind_some, numbersOf?_toJson,
    Catalog.numbers, (sorted_ofPairs _).ofPairs_eq]

end BundlePrep.Message
