import BundlePrep.PrivateName.Resolve
import BundlePrep.Proofs.PrivateName.Names
import Mathlib.Data.List.Shortlex
import Mathlib.Data.Set.Card

/-!
# The order of the short names

The letters have an order of their own, `a` to `z` and then `A` to `Z`. It orders the names by their
length and then letter by letter. The count goes through them in this order and leaves none out, so
that a generator hands them out one after another and none of them twice.
-/

set_option autoImplicit false

namespace BundlePrep.PrivateName

/-! ## The order -/

/-- The small letters come before the capital ones, and letters of one kind in the order of the
alphabet. -/
def LetterBefore (c d : Char) : Prop :=
  c.isLower = true ∧ d.isLower = false ∨ c.isLower = d.isLower ∧ c < d

instance (c d : Char) : Decidable (LetterBefore c d) :=
  inferInstanceAs (Decidable (_ ∨ _))

instance : Std.Asymm LetterBefore where
  asymm c d before after := by
    rcases before with ⟨lower, capital⟩ | ⟨same, less⟩ <;>
      rcases after with ⟨lower', capital'⟩ | ⟨same', less'⟩
    · simp [lower] at capital'
    · simp [lower, capital] at same'
    · simp [lower', capital'] at same
    · exact Char.lt_asymm less less'

/-- A name comes before another one: it is shorter, or as long and less at the first letter in which
they differ. -/
def Before (s t : String) : Prop := List.Shortlex LetterBefore s.toList t.toList

/-- Names are `$` with one letter or more. -/
def IsShortName (s : String) : Prop :=
  ∃ w : List Char, w ≠ [] ∧ (∀ c ∈ w, c.isAlpha = true) ∧ s = String.ofList ('$' :: w)

theorem Before.asymm {s t : String} (before : Before s t) : ¬Before t s :=
  Std.Asymm.asymm (r := List.Shortlex LetterBefore) _ _ before

theorem lex_append {α : Type} {r : α → α → Prop} {u v : List α} (h : List.Lex r u v)
    (length : u.length = v.length) (s t : List α) : List.Lex r (u ++ s) (v ++ t) := by
  induction h with
  | nil => simp at length
  | cons _ ih => exact List.Lex.cons (ih (by simpa using length))
  | rel less => exact List.Lex.rel less

theorem shortlex_concat {α : Type} {r : α → α → Prop} {u v : List α} (h : List.Shortlex r u v)
    (a b : α) : List.Shortlex r (u ++ [a]) (v ++ [b]) := by
  rcases List.shortlex_def.1 h with shorter | ⟨same, less⟩
  · apply List.Shortlex.of_length_lt
    simpa using shorter
  · apply List.Shortlex.of_lex
    · simpa using same
    · exact lex_append less same [a] [b]

/-! ## The count in this order -/

theorem letter_before {i j : Nat} (less : i < j) (small : j < 52) :
    LetterBefore (letter i) (letter j) := by
  have table : ∀ j < 52, ∀ i < j, LetterBefore (letter i) (letter j) := by decide +kernel
  exact table j small i less

/-- A word without its last letter is the word of an index 52 times smaller: either that one grows
with the index, or it stays and the last letter grows. -/
theorem reverse_shortLetters_before {m n : Nat} (less : m < n) :
    List.Shortlex LetterBefore (shortLetters m).reverse (shortLetters n).reverse := by
  induction n using Nat.strongRecOn generalizing m with
  | _ n ih =>
    by_cases single : n < 52
    · rw [shortLetters_of_lt single, shortLetters_of_lt (by omega)]
      exact (List.shortlex_singleton_iff _ _).2 (letter_before less single)
    have long : 52 ≤ n := by omega
    rw [shortLetters_of_ge long, List.reverse_cons]
    by_cases short : m < 52
    · rw [shortLetters_of_lt short]
      apply List.Shortlex.of_length_lt
      simpa using List.length_pos_iff.2 (shortLetters_ne_nil (n / 52 - 1))
    rw [shortLetters_of_ge (by omega), List.reverse_cons]
    by_cases same : m / 52 = n / 52
    · rw [same]
      apply List.Shortlex.append_left
      exact (List.shortlex_singleton_iff _ _).2
        (letter_before (by omega) (Nat.mod_lt n (by omega)))
    · exact shortlex_concat (ih (n / 52 - 1) (by omega) (by omega)) _ _

theorem shortName_before {m n : Nat} (less : m < n) : Before (shortName m) (shortName n) := by
  rw [Before, shortName, shortName, String.toList_ofList, String.toList_ofList]
  exact (reverse_shortLetters_before less).cons

/-- After the last name of two letters comes the first one of three. -/
example : shortName 2755 = "$ZZ" ∧ shortName 2756 = "$aaa" := by decide +kernel

theorem shortName_before_iff (m n : Nat) : Before (shortName m) (shortName n) ↔ m < n := by
  constructor
  · intro before
    by_contra late
    rcases Nat.lt_or_eq_of_le (Nat.not_lt.1 late) with less | rfl
    · exact before.asymm (shortName_before less)
    · exact before.asymm before
  · exact shortName_before

theorem isShortName_shortName (n : Nat) : IsShortName (shortName n) :=
  ⟨(shortLetters n).reverse, by simpa using shortLetters_ne_nil n,
    by simpa using isAlpha_shortLetters n, rfl⟩

theorem exists_shortName {s : String} (short : IsShortName s) : ∃ n, shortName n = s := by
  obtain ⟨w, nonempty, letters, rfl⟩ := short
  exact ⟨_, shortName_countOf nonempty letters⟩

theorem shortName_bijOn : Set.BijOn shortName Set.univ {s | IsShortName s} := by
  refine ⟨fun n _ => isShortName_shortName n, shortName_injective.injOn, ?_⟩
  intro s short
  obtain ⟨n, rfl⟩ := exists_shortName short
  exact Set.mem_image_of_mem shortName (Set.mem_univ n)

theorem before_shortName_eq (n : Nat) :
    {s | IsShortName s ∧ Before s (shortName n)} = shortName '' (Finset.range n) := by
  ext s
  constructor
  · rintro ⟨short, before⟩
    obtain ⟨m, rfl⟩ := exists_shortName short
    exact ⟨m, by simpa using (shortName_before_iff m n).1 before, rfl⟩
  · rintro ⟨m, less, rfl⟩
    exact ⟨isShortName_shortName m, shortName_before (by simpa using less)⟩

theorem encard_before_shortName (n : Nat) :
    {s | IsShortName s ∧ Before s (shortName n)}.encard = n := by
  rw [before_shortName_eq, shortName_injective.encard_image, Set.encard_coe_eq_coe_finsetCard,
    Finset.card_range]

/-! ## What a generator hands out -/

namespace Generator

theorem names_eq (g : Generator) (count : Nat) :
    g.names count = ((List.range' g.next count).map shortName, ⟨g.next + count⟩) := by
  induction count generalizing g with
  | zero => rfl
  | succ count ih =>
    rw [names, nextName]
    simp only [ih]
    rw [List.range'_succ, List.map_cons]
    congr 2
    omega

theorem names_fresh (count : Nat) : fresh.names count = (shortNames count, ⟨count⟩) := by
  rw [names_eq, fresh, shortNames, List.range_eq_range', Nat.zero_add]

/-- The name of the call behind a number of earlier ones. -/
def call (g : Generator) (earlier : Nat) : String := (g.names earlier).2.nextName.1

theorem call_fresh (earlier : Nat) : fresh.call earlier = shortName earlier := by
  rw [call, names_fresh, nextName]

end Generator

/-- The names are counted in their order and each of them once. So are the calls of a fresh
generator: before the name of a call stand as many names as there were calls before it. -/
theorem shortName_enumerates :
    Set.BijOn shortName Set.univ {s | IsShortName s} ∧
      (∀ m n, Before (shortName m) (shortName n) ↔ m < n) ∧
      (∀ earlier, IsShortName (Generator.fresh.call earlier) ∧
        {s | IsShortName s ∧ Before s (Generator.fresh.call earlier)}.encard = earlier) ∧
      Function.Injective Generator.fresh.call := by
  have calls : Generator.fresh.call = shortName := funext Generator.call_fresh
  rw [calls]
  exact ⟨shortName_bijOn, shortName_before_iff,
    fun earlier => ⟨isShortName_shortName earlier, encard_before_shortName earlier⟩,
    shortName_injective⟩

end BundlePrep.PrivateName
