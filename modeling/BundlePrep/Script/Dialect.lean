import BundlePrep.Script.Parse

/-!
# Dialects by file name

The extension of a file says with which grammar it is read.
-/

set_option autoImplicit false

namespace BundlePrep.Script.Dialect

def ts : Dialect := ⟨true, false⟩

def tsx : Dialect := ⟨true, true⟩

def js : Dialect := ⟨false, false⟩

def jsx : Dialect := ⟨false, true⟩

/-- Unknown extensions are read without types and markup. -/
def ofExtension : Option String → Dialect
  | some "ts" | some "mts" | some "cts" => ts
  | some "tsx" => tsx
  | some "jsx" => jsx
  | _ => js

def name (d : Dialect) : String :=
  match d with
  | ⟨true, false⟩ => "ts"
  | ⟨true, true⟩ => "tsx"
  | ⟨false, false⟩ => "js"
  | ⟨false, true⟩ => "jsx"

def ofName? : String → Option Dialect
  | "ts" => some ts
  | "tsx" => some tsx
  | "js" => some js
  | "jsx" => some jsx
  | _ => none

end BundlePrep.Script.Dialect
