import BundlePrep.Message.Literal

/-!
# Placeholders

The key of a call is replaced by a placeholder, a text that names the module and the key. Its tag
says of which of the two functions the call is, and so what becomes of the message beside it.
-/

set_option autoImplicit false

namespace BundlePrep.Message

/-- Whether a production build blanks the message of a call or keeps it. -/
inductive Flavor where
  | blank
  | keep
  deriving DecidableEq, Repr

namespace Flavor

def all : List Flavor := [.blank, .keep]

def function : Flavor → String
  | .blank => "localize"
  | .keep => "localize2"

def tag : Flavor → String
  | .blank => "NLS"
  | .keep => "NLS2"

def opening (flavor : Flavor) : String := "%%" ++ flavor.tag ++ ":"

def ofTag? (text : String) : Option Flavor := all.find? (·.tag == text)

def ofPlaceholder? (text : String) : Option Flavor :=
  all.find? fun flavor => flavor.opening.toList.isPrefixOf text.toList

end Flavor

def placeholder (flavor : Flavor) (moduleId key : String) : String :=
  flavor.opening ++ moduleId ++ "#" ++ key ++ "%%"

structure Entry where
  moduleId : String
  key : Key
  message : String
  placeholder : String
  deriving DecidableEq, Repr

namespace Entry

def ofCall (flavor : Flavor) (moduleId : String) (key : Key) (message : String) : Entry :=
  ⟨moduleId, key, message, Message.placeholder flavor moduleId key.primary⟩

def flavor? (entry : Entry) : Option Flavor := Flavor.ofPlaceholder? entry.placeholder

end Entry

theorem toList_placeholder (flavor : Flavor) (moduleId key : String) :
    (placeholder flavor moduleId key).toList =
      flavor.opening.toList ++ (moduleId.toList ++ '#' :: key.toList ++ ['%', '%']) := by
  simp [placeholder]

theorem ofPlaceholder?_placeholder (flavor : Flavor) (moduleId key : String) :
    Flavor.ofPlaceholder? (placeholder flavor moduleId key) = some flavor := by
  unfold Flavor.ofPlaceholder?
  rw [toList_placeholder]
  cases flavor <;> simp [Flavor.all, Flavor.opening, Flavor.tag, List.find?, List.isPrefixOf]

end BundlePrep.Message
