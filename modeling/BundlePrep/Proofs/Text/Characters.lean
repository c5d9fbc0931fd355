/-!
# Statements about the characters of a text

What is said of all characters of a text, or of its first or last one, is decided by looking at these
characters, never by going through all characters there are.
-/

set_option autoImplicit false

namespace BundlePrep.Text

variable {p : Char → Prop} [DecidablePred p]

instance (priority := high) decidableAllOf (text : List Char) : Decidable (∀ c ∈ text, p c) :=
  List.decidableBAll p text

instance (priority := high) decidableAllOf? (c? : Option Char) : Decidable (∀ c ∈ c?, p c) :=
  Option.decidableForallMem c?

end BundlePrep.Text
