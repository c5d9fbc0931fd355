/-!
# Short names

The generated names are `$` followed by letters: all words over `a` to `z` and `A` to `Z`, first by
length and then letter by letter. The name of index `n` is the `n`th of them, a count in base 52
whose digits run from one, so no two indices share a name. A generator hands the names out one after
another and has no state but the index of the next one.
-/

set_option autoImplicit false

namespace BundlePrep.PrivateName

def letters : Array Char :=
  "abcdefghijklmnopqrstuvwxyzABCDEFGHIJKLMNOPQRSTUVWXYZ".toList.toArray

def letter (digit : Nat) : Char := letters.getD digit 'a'

/-- The letters of the `n`th word, last letter first. -/
def shortLetters (n : Nat) : List Char :=
  letter (n % 52) :: if n < 52 then [] else shortLetters (n / 52 - 1)
termination_by n
decreasing_by omega

def shortName (n : Nat) : String := String.ofList ('$' :: (shortLetters n).reverse)

def shortNames (count : Nat) : List String := (List.range count).map shortName

structure Generator where
  /-- The index of the next name: the number of names that a fresh generator has handed out. -/
  next : Nat
  deriving DecidableEq, Repr

namespace Generator

def fresh : Generator := ⟨0⟩

def nextName (g : Generator) : String × Generator := (shortName g.next, ⟨g.next + 1⟩)

def names (g : Generator) : Nat → List String × Generator
  | 0 => ([], g)
  | count + 1 =>
    let (name, behind) := g.nextName
    let (others, last) := behind.names count
    (name :: others, last)

end Generator

theorem shortLetters_of_lt {n : Nat} (h : n < 52) : shortLetters n = [letter n] := by
  rw [shortLetters, if_pos h, Nat.mod_eq_of_lt h]

theorem shortLetters_of_ge {n : Nat} (h : 52 ≤ n) :
    shortLetters n = letter (n % 52) :: shortLetters (n / 52 - 1) := by
  rw [shortLetters, if_neg (by omega)]

theorem shortLetters_ne_nil (n : Nat) : shortLetters n ≠ [] := by
  rw [shortLetters]
  exact List.cons_ne_nil _ _

end BundlePrep.PrivateName
