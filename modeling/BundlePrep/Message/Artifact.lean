import BundlePrep.Message.Catalog

/-!
# Artifacts of a catalog

A catalog is written as five files: the messages, the keys of each module, both by module, a script
that makes the messages known to a program, and the numbers by placeholder.
-/

set_option autoImplicit false

namespace BundlePrep.Message

open BundlePrep.Json

def Key.toJson : Key → Value
  | .plain text => .ofText text
  | .described text comments =>
    .ofMembers [("key", .ofText text), ("comment", .ofTexts comments)]

namespace Catalog

def messagesJson (catalog : Catalog) : Value := .ofTexts catalog.messages

def keysJson (catalog : Catalog) : Value :=
  .list (catalog.keysByModule.map fun (moduleId, keys) =>
    .list [.ofText moduleId, .list (keys.map Key.toJson)])

def jsonByModule (value : Entry → Value) (catalog : Catalog) : Value :=
  .ofMembers ((catalog.byModule value).map fun (moduleId, values) => (moduleId, .list values))

def metadataJson (catalog : Catalog) : Value :=
  .ofMembers [("keys", catalog.jsonByModule (·.key.toJson)),
    ("messages", catalog.jsonByModule (.ofText ·.message))]

def script (catalog : Catalog) (globalName : String) : String :=
  "globalThis." ++ globalName ++ "=" ++ catalog.messagesJson.compact ++ ";"

end Catalog

def Numbers.toJson (numbers : Numbers) : Value :=
  .ofMembers (numbers.map fun (placeholder, number) => (placeholder, .ofNat number))

def numbersFile : String := "nls.placeholders.json"

/-- The artifacts in the order in which they are written: a file name and its text. -/
def Catalog.artifacts (catalog : Catalog) (globalName : String) : List (String × String) :=
  [("nls.messages.json", catalog.messagesJson.compact),
    ("nls.keys.json", catalog.keysJson.compact),
    ("nls.metadata.json", catalog.metadataJson.pretty),
    ("nls.messages.js", catalog.script globalName),
    (numbersFile, catalog.numbers.toJson.pretty)]

end BundlePrep.Message
