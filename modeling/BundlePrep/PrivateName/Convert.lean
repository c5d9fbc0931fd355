import BundlePrep.PrivateName.Resolve
import BundlePrep.PrivateName.Short
import BundlePrep.Script.Program
import BundlePrep.Text.Edit

/-!
# Replacing private names

Every bound private name of a script is replaced by the short name of its number; as the left
operand of `in` it becomes a quoted text. A script without `#` is not even parsed.
-/

set_option autoImplicit false

namespace BundlePrep.PrivateName

open BundlePrep.Script BundlePrep.Text

structure Conversion where
  code : String
  classes : Nat
  names : Nat
  edits : Nat
  deriving DecidableEq, Repr

def Conversion.unchanged (code : String) : Conversion := ⟨code, 0, 0, 0⟩

inductive ConvertError where
  | malformed
  | cutCharacter
  deriving DecidableEq, Repr

/-- The bytes that a use takes in the text. A range that misses the `#` just before it is extended
to it. -/
def Use.range (bytes : ByteArray) (use : Use) : Nat × Nat :=
  let start := use.span.start
  if 0 < start && bytes[start]? != some 35 && bytes[start - 1]? == some 35 then
    (start - 1, use.span.stop)
  else (start, use.span.stop)

def newName (quoted : Bool) (number : Nat) : String :=
  if quoted then "'" ++ shortName number ++ "'" else shortName number

def Use.replacement (use : Use) (number : Nat) : String := newName use.quoted number

def Use.edit? (bytes : ByteArray) (use : Use) : Option Edit :=
  use.number.map fun number =>
    let (start, stop) := use.range bytes
    ⟨start, stop, use.replacement number⟩

def editsOf (code : String) (found : Found) : List Edit :=
  found.uses.filterMap (·.edit? code.toUTF8)

def convert (dialect : Dialect) (code : String) : Except ConvertError Conversion :=
  if !code.toList.contains '#' then .ok (.unchanged code)
  else
    match Program.parse? dialect code.toList with
    | none => .error .malformed
    | some program =>
      let found := resolve program
      match editsOf code found with
      | [] => .ok (.unchanged code)
      | edits =>
        match Edit.applyAll? code edits with
        | some converted => .ok ⟨converted, found.classes, found.next, edits.length⟩
        | none => .error .cutCharacter

end BundlePrep.PrivateName
