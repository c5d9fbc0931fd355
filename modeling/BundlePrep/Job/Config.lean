import BundlePrep.Glob.Pattern
import BundlePrep.Json.Read
import BundlePrep.Text.Blank

/-!
# Configuration

A configuration is read from a JSON object, or from a list of its fields in their order. Missing
fields have defaults and unknown ones are passed over, but no field may be given twice.
-/

set_option autoImplicit false

namespace BundlePrep.Job

open BundlePrep.Glob BundlePrep.Json BundlePrep.Text

structure MangleConfig where
  enabled : Bool
  excludes : List String
  deriving DecidableEq, Repr

structure Config where
  sourceRoot : String
  outDir : String
  extraOutDirs : List String
  includes : List String
  ignores : List String
  preserveEnglish : Bool
  nlsGlobal : String
  mangle : MangleConfig
  deriving DecidableEq, Repr

namespace MangleConfig

def default : MangleConfig := ⟨true, []⟩

def toJson (c : MangleConfig) : Value :=
  .ofMembers [("enabled", .boolean c.enabled), ("excludes", .ofTexts c.excludes)]

end MangleConfig

namespace Config

def default : Config :=
  { sourceRoot := "./src"
    outDir := "./out-build"
    extraOutDirs := []
    includes := []
    ignores := []
    preserveEnglish := false
    nlsGlobal := "_NLS_MESSAGES"
    mangle := .default }

def toJson (c : Config) : Value :=
  .ofMembers [
    ("sourceRoot", .ofText c.sourceRoot),
    ("outDir", .ofText c.outDir),
    ("extraOutDirs", .ofTexts c.extraOutDirs),
    ("includes", .ofTexts c.includes),
    ("ignores", .ofTexts c.ignores),
    ("preserveEnglish", .boolean c.preserveEnglish),
    ("nlsGlobal", .ofText c.nlsGlobal),
    ("mangle", c.mangle.toJson)]

end Config

/-! ## Reading -/

/-- The value of a field in an object; a field that is given twice has none. -/
def fieldOf? (members : List (String × Value)) (name : String) : Option (Option Value) :=
  match members.filter (·.1 == name) with
  | [] => some none
  | [(_, value)] => some (some value)
  | _ => none

def fieldsOf? (names : List String) : Value → Option (List (Option Value))
  | .list items =>
    if items.length ≤ names.length then
      some (items.map some ++ List.replicate (names.length - items.length) none)
    else none
  | value => value.members? >>= fun members => names.mapM (fieldOf? members)

def readField? {α : Type} (read : Value → Option α) (default : α) : Option Value → Option α
  | none => some default
  | some value => read value

namespace MangleConfig

def ofJson? (value : Value) : Option MangleConfig := do
  match ← fieldsOf? ["enabled", "excludes"] value with
  | [enabled, excludes] =>
    return ⟨← readField? Value.boolean? true enabled, ← readField? Value.texts? [] excludes⟩
  | _ => none

end MangleConfig

namespace Config

def fieldNames : List String :=
  ["sourceRoot", "outDir", "extraOutDirs", "includes", "ignores", "preserveEnglish", "nlsGlobal",
    "mangle"]

def ofJson? (value : Value) : Option Config := do
  match ← fieldsOf? fieldNames value with
  | [sourceRoot, outDir, extraOutDirs, includes, ignores, preserveEnglish, nlsGlobal, mangle] =>
    return {
      sourceRoot := ← readField? Value.text? default.sourceRoot sourceRoot
      outDir := ← readField? Value.text? default.outDir outDir
      extraOutDirs := ← readField? Value.texts? default.extraOutDirs extraOutDirs
      includes := ← readField? Value.texts? default.includes includes
      ignores := ← readField? Value.texts? default.ignores ignores
      preserveEnglish := ← readField? Value.boolean? default.preserveEnglish preserveEnglish
      nlsGlobal := ← readField? Value.text? default.nlsGlobal nlsGlobal
      mangle := ← readField? MangleConfig.ofJson? default.mangle mangle }
  | _ => none

def read? (text : String) : Option Config := Value.read? text.toList >>= ofJson?

end Config

/-! ## Checking -/

inductive ConfigError where
  | pattern (field text : String) (error : PatternError)
  | emptyGlobal
  | badGlobal (name : String)
  deriving DecidableEq, Repr

def ConfigError.messages : ConfigError → List String
  | .pattern field text error => [s!"Invalid glob pattern in '{field}': \"{text}\"", error.message]
  | .emptyGlobal => ["'nlsGlobal' must not be empty"]
  | .badGlobal name => [s!"'nlsGlobal' must be a JavaScript identifier: \"{name}\""]

def checkPattern (field text : String) : Except ConfigError Unit :=
  match Pattern.parse text with
  | .ok _ => .ok ()
  | .error e => .error (.pattern field text e)

def isPlainStart (c : Char) : Bool := c.isAlpha || c == '_' || c == '$'

def isPlainPart (c : Char) : Bool := c.isAlphanum || c == '_' || c == '$'

def isPlainIdentifier (text : String) : Bool :=
  match text.toList with
  | [] => false
  | c :: cs => isPlainStart c && cs.all isPlainPart

/-- Checks the patterns, and the name that a script will assign to. Includes without wildcards are
plain paths. -/
def Config.check (c : Config) : Except ConfigError Unit := do
  c.ignores.forM (checkPattern "ignores")
  (c.includes.filter hasWildcard).forM (checkPattern "includes")
  c.mangle.excludes.forM (checkPattern "mangle.excludes")
  if c.nlsGlobal.toList.all isWhiteSpace then .error .emptyGlobal
  else if !isPlainIdentifier c.nlsGlobal then .error (.badGlobal c.nlsGlobal)
  else return ()

end BundlePrep.Job
