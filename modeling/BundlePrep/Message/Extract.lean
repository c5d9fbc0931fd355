import BundlePrep.Json.Quoted
import BundlePrep.Message.Argument
import BundlePrep.Message.Call
import BundlePrep.Script.Program
import BundlePrep.Text.Document
import BundlePrep.Text.Search

/-!
# Extracting messages

The messages of a script are taken down as entries, and the key of each call is replaced by the
quoted placeholder of its entry. The replacements run from the last call to the first on a document,
where lines keep their numbers, so the ranges of the earlier calls stay valid.
-/

set_option autoImplicit false

namespace BundlePrep.Message

open BundlePrep.Script BundlePrep.Text

inductive Role where
  | key
  | message
  deriving DecidableEq, Repr

def Role.name : Role → String
  | .key => "key"
  | .message => "message"

inductive ExtractError where
  | malformed
  | argument (start : Position) (flavor : Flavor) (role : Role) (cause : LiteralError)
  deriving DecidableEq, Repr

/-- Where and how an argument of a call in a file was refused; lines and columns are counted from
one. -/
def argumentContext (file : String) (start : Position) (flavor : Flavor) (role : Role) : String :=
  s!"{file}:{start.line + 1}:{start.column + 1}: unsupported {flavor.function} {role.name}"

structure Extraction where
  code : String
  entries : List Entry
  deriving DecidableEq, Repr

def Extraction.changed (extraction : Extraction) : Bool := !extraction.entries.isEmpty

def notAfter (a b : Position) : Bool := a.line < b.line || a.line == b.line && a.column ≤ b.column

def allCalls (text : List Char) (program : Program) : List Call :=
  (Flavor.all.flatMap fun flavor => calls flavor text program).mergeSort fun a b =>
    notAfter a.keyRange.start b.keyRange.start

def entryOf (moduleId : String) (call : Call) : Except ExtractError Entry := do
  let refuse (role : Role) := ExtractError.argument call.keyRange.start call.flavor role
  let key ← (parseKey call.key).mapError (refuse .key)
  let message ← (parseValue call.message).mapError (refuse .message)
  return .ofCall call.flavor moduleId key message

def replaceKeys (document : Document) (found : List (Call × Entry)) : Document :=
  found.foldr (fun (call, entry) document =>
    document.replace call.keyRange (Json.quoteChars entry.placeholder.toList)) document

/-- Extracts the messages of a script. One that does not hold the word `localize` is not even
parsed. -/
def extract (dialect : Dialect) (moduleId code : String) : Except ExtractError Extraction :=
  let text := code.toList
  if !occursIn Flavor.blank.function.toList text then .ok ⟨code, []⟩
  else
    match Program.parse? dialect text with
    | none => .error .malformed
    | some program => do
      let found := allCalls text program
      let entries ← found.mapM (entryOf moduleId)
      if entries.isEmpty then return ⟨code, []⟩
      return ⟨String.ofList (replaceKeys (.ofText text) (found.zip entries)).toText, entries⟩

end BundlePrep.Message
