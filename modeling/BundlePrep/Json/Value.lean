import BundlePrep.Json.Quoted

/-!
# JSON values

A value keeps the written form of its numbers and texts, so reading and printing lose nothing. It is
printed either without any space or on lines of its own, indented by two spaces for each level.
-/

set_option autoImplicit false

namespace BundlePrep.Json

inductive Value where
  | null
  | boolean (value : Bool)
  | number (written : List Char)
  | text (written : List Char)
  | list (items : List Value)
  | object (members : List (List Char × Value))
  deriving Inhabited

namespace Value

def ofText (text : String) : Value := .text (encode text.toList)

def ofNat (n : Nat) : Value := .number (Nat.toDigits 10 n)

def ofTexts (texts : List String) : Value := .list (texts.map ofText)

def ofMembers (members : List (String × Value)) : Value :=
  .object (members.map fun (name, value) => (encode name.toList, value))

def quoted (written : List Char) : List Char := '"' :: written ++ ['"']

/-! ## Without spaces -/

mutual
def compactChars : Value → List Char
  | .null => "null".toList
  | .boolean true => "true".toList
  | .boolean false => "false".toList
  | .number written => written
  | .text written => quoted written
  | .list [] => ['[', ']']
  | .list (v :: vs) => '[' :: compactChars v ++ compactItems vs
  | .object [] => ['{', '}']
  | .object ((name, v) :: ms) => '{' :: quoted name ++ ':' :: compactChars v ++ compactMembers ms

def compactItems : List Value → List Char
  | [] => [']']
  | v :: vs => ',' :: compactChars v ++ compactItems vs

def compactMembers : List (List Char × Value) → List Char
  | [] => ['}']
  | (name, v) :: ms => ',' :: quoted name ++ ':' :: compactChars v ++ compactMembers ms
end

/-! ## On lines -/

def newLine (level : Nat) : List Char := '\n' :: List.replicate (2 * level) ' '

mutual
def prettyChars (level : Nat) : Value → List Char
  | .null => "null".toList
  | .boolean true => "true".toList
  | .boolean false => "false".toList
  | .number written => written
  | .text written => quoted written
  | .list [] => ['[', ']']
  | .list (v :: vs) =>
    '[' :: newLine (level + 1) ++ prettyChars (level + 1) v ++ prettyItems level vs
  | .object [] => ['{', '}']
  | .object ((name, v) :: ms) =>
    '{' :: newLine (level + 1) ++ quoted name ++ ':' :: ' ' :: prettyChars (level + 1) v ++
      prettyMembers level ms

def prettyItems (level : Nat) : List Value → List Char
  | [] => newLine level ++ [']']
  | v :: vs => ',' :: newLine (level + 1) ++ prettyChars (level + 1) v ++ prettyItems level vs

def prettyMembers (level : Nat) : List (List Char × Value) → List Char
  | [] => newLine level ++ ['}']
  | (name, v) :: ms =>
    ',' :: newLine (level + 1) ++ quoted name ++ ':' :: ' ' :: prettyChars (level + 1) v ++
      prettyMembers level ms
end

def compact (v : Value) : String := String.ofList v.compactChars

def pretty (v : Value) : String := String.ofList (v.prettyChars 0)

end Value

end BundlePrep.Json
