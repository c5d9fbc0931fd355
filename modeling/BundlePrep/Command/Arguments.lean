/-!
# Arguments of the command line

The first argument names a command, and the others are its options. An option takes its value from
behind an equals sign or from the next argument, as long as that is no option itself; such a value
is looked at when the next option comes or the arguments end. The first error counts.
-/

set_option autoImplicit false

namespace BundlePrep.Command

inductive UsageError where
  | unknownArgument
  | invalidSubcommand
  | invalidValue
  | argumentConflict
  | tooManyValues
  | displayHelp
  | displayVersion
  deriving DecidableEq, Repr

inductive OptionKind where
  | help
  | version
  | flag
  | path (repeated : Bool)
  | text
  deriving DecidableEq, Repr

structure OptionSpec where
  name : String
  short : Option Char
  kind : OptionKind
  deriving DecidableEq, Repr

namespace OptionSpec

def takesValue (o : OptionSpec) : Bool :=
  match o.kind with
  | .path _ | .text => true
  | .help | .version | .flag => false

def mayRepeat (o : OptionSpec) : Bool :=
  match o.kind with
  | .path repeated => repeated
  | .text => true
  | .help | .version | .flag => false

def help : OptionSpec := ⟨"help", some 'h', .help⟩

def version : OptionSpec := ⟨"version", some 'V', .version⟩

def root : OptionSpec := ⟨"root", none, .path false⟩

def verbose : OptionSpec := ⟨"verbose", some 'v', .flag⟩

end OptionSpec

structure Given where
  name : String
  value : String
  deriving DecidableEq, Repr

structure Reading where
  given : List Given
  pending : Option (OptionSpec × Option String)
  deriving DecidableEq, Repr

namespace Reading

def empty : Reading := ⟨[], none⟩

def accept (r : Reading) (o : OptionSpec) (value : String) : Except UsageError Reading :=
  if !o.mayRepeat && r.given.any (·.name == o.name) then .error .argumentConflict
  else if o.kind matches .path _ && value.isEmpty then .error .invalidValue
  else .ok { r with given := r.given ++ [⟨o.name, value⟩] }

def settle (r : Reading) : Except UsageError Reading :=
  match r.pending with
  | none => .ok r
  | some (_, none) => .error .invalidValue
  | some (o, some value) => { r with pending := none }.accept o value

def acceptFlag (r : Reading) (o : OptionSpec) : Except UsageError Reading := do
  let r ← r.settle
  match o.kind with
  | .help => .error .displayHelp
  | .version => .error .displayVersion
  | _ => r.accept o ""

def long (r : Reading) (specs : List OptionSpec) (name : String) (value : Option String) :
    Except UsageError Reading :=
  match specs.find? (·.name == name), value with
  | none, _ => .error .unknownArgument
  | some o, value =>
    if o.takesValue then
      match value with
      | some value => do (← r.settle).accept o value
      | none => do return { ← r.settle with pending := some (o, none) }
    else if value.isSome then .error .tooManyValues
    else r.acceptFlag o

def short (specs : List OptionSpec) (r : Reading) (letter : Char) : Except UsageError Reading :=
  match specs.find? (·.short == some letter) with
  | some o => r.acceptFlag o
  | none => .error .unknownArgument

def plain (r : Reading) (text : String) : Except UsageError Reading :=
  match r.pending with
  | some (o, none) => .ok { r with pending := some (o, some text) }
  | _ => .error .unknownArgument

end Reading

inductive Form where
  | long (name : String) (value : Option String)
  | short (letters : List Char)
  | noMoreOptions
  | plain
  deriving DecidableEq, Repr

def formOf (argument : String) : Form :=
  match argument.toList with
  | ['-', '-'] => .noMoreOptions
  | '-' :: '-' :: cs =>
    let name := String.ofList (cs.takeWhile (· ≠ '='))
    match cs.dropWhile (· ≠ '=') with
    | _ :: value => .long name (some (String.ofList value))
    | [] => .long name none
  | '-' :: c :: cs => .short (c :: cs)
  | _ => .plain

def readOptions (specs : List OptionSpec) (r : Reading) :
    List String → Except UsageError (List Given)
  | [] => do return (← r.settle).given
  | argument :: arguments =>
    match formOf argument with
    | .noMoreOptions =>
      if arguments.isEmpty then do return (← r.settle).given else .error .unknownArgument
    | .long name value => do readOptions specs (← r.long specs name value) arguments
    | .short letters => do readOptions specs (← letters.foldlM (Reading.short specs) r) arguments
    | .plain => do readOptions specs (← r.plain argument) arguments

/-! ## Commands -/

structure Common where
  root : Option String
  verbose : Bool
  deriving DecidableEq, Repr

inductive Action where
  | extract (common : Common) (sourceRoot outDir : Option String) (extraOutDirs : List String)
  | inline (common : Common) (directory indexDirectory : Option String) (preserveEnglish : Bool)
  | convert (common : Common) (directory : Option String) (excludes : List String)
  | init
  deriving DecidableEq, Repr

def Action.verbose : Action → Bool
  | .extract common _ _ _ | .inline common _ _ _ | .convert common _ _ => common.verbose
  | .init => false

def valuesOf (given : List Given) (name : String) : List String :=
  (given.filter (·.name == name)).map (·.value)

def value? (given : List Given) (name : String) : Option String := (valuesOf given name).head?

def isGiven (given : List Given) (name : String) : Bool := given.any (·.name == name)

def commonOf (given : List Given) : Common := ⟨value? given "root", isGiven given "verbose"⟩

def commandSpecs : List (String × List OptionSpec) :=
  [("nls", [.help, .root, .verbose, ⟨"source-root", none, .path false⟩,
      ⟨"out-dir", none, .path false⟩, ⟨"extra-out-dir", none, .path true⟩]),
    ("postprocess", [.help, .root, .verbose, ⟨"dir", none, .path false⟩,
      ⟨"index-dir", none, .path false⟩, ⟨"preserve-english", none, .flag⟩]),
    ("mangle", [.help, .root, .verbose, ⟨"dir", none, .path false⟩, ⟨"exclude", none, .text⟩]),
    ("init", [.help])]

def commandOf (name : String) (given : List Given) : Action :=
  match name with
  | "nls" => .extract (commonOf given) (value? given "source-root") (value? given "out-dir")
      (valuesOf given "extra-out-dir")
  | "postprocess" => .inline (commonOf given) (value? given "dir") (value? given "index-dir")
      (isGiven given "preserve-english")
  | "mangle" => .convert (commonOf given) (value? given "dir") (valuesOf given "exclude")
  | _ => .init

/-- Help for a command: at most one name may follow. -/
def helpFor : List String → UsageError
  | [] => .displayHelp
  | [name] =>
    if name = "help" || (commandSpecs.lookup name).isSome then .displayHelp else .invalidSubcommand
  | _ => .invalidSubcommand

/-- Options in place of a command. They end the reading. -/
def readGlobal (argument : String) : UsageError :=
  let specs := [OptionSpec.help, OptionSpec.version]
  let result := match formOf argument with
    | .long name value => Reading.empty.long specs name value
    | .short letters => letters.foldlM (Reading.short specs) Reading.empty
    | .noMoreOptions | .plain => .error .invalidSubcommand
  match result with
  | .error e => e
  | .ok _ => .unknownArgument

/-- A command behind two hyphens is not taken for one. -/
def readBehindHyphens : List String → Except UsageError (Option Action)
  | [] => .ok none
  | name :: _ =>
    if name = "help" || (commandSpecs.lookup name).isSome then .error .unknownArgument
    else .error .invalidSubcommand

def readArguments : List String → Except UsageError (Option Action)
  | [] => .ok none
  | "help" :: arguments => .error (helpFor arguments)
  | name :: arguments =>
    if formOf name = .noMoreOptions then readBehindHyphens arguments
    else match commandSpecs.lookup name with
    | some specs => do return some (commandOf name (← readOptions specs .empty arguments))
    | none => .error (readGlobal name)

end BundlePrep.Command
