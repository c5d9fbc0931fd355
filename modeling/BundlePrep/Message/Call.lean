import BundlePrep.Message.Placeholder
import BundlePrep.Script.Tree
import BundlePrep.Text.Position

/-!
# Localization calls

A module reaches the localization functions through its imports of a module named `nls`: as a member
of the whole module, or by a name for the function. A call by such a name counts where no scope
around it has declared that name. Names come into their scopes while the tree is walked, so a
declaration hides an import from the place where it stands on; that of a function's `var` reaches
the whole function that is still to be walked.
-/

set_option autoImplicit false

namespace BundlePrep.Message

open BundlePrep.Script BundlePrep.Text

/-- Whether a module specifier names the localization module: its last segment is `nls`, with or
without the extension `.js`. -/
def isLocalizationModule (specifier : String) : Bool :=
  let last := (specifier.toList.reverse.takeWhile (· ≠ '/')).reverse
  last == "nls".toList || last == "nls.js".toList

structure Imports where
  modules : List String
  functions : List String
  deriving DecidableEq, Repr

namespace Imports

def contains (imports : Imports) (name : String) : Bool :=
  imports.modules.contains name || imports.functions.contains name

def isEmpty (imports : Imports) : Bool := imports.modules.isEmpty && imports.functions.isEmpty

def bindingsOf : Node → List ImportBinding
  | .importing source bindings => if isLocalizationModule source then bindings else []
  | _ => []

def ofProgram (flavor : Flavor) (program : Program) : Imports :=
  let bindings := if program.isModule then program.body.flatMap bindingsOf else []
  { modules := (bindings.filter (·.exported == none)).map (·.bound)
    functions := (bindings.filter (·.exported == some flavor.function)).map (·.bound) }

end Imports

structure Scope where
  function : Bool
  hidden : List String
  deriving DecidableEq, Repr

abbrev Scopes := List Scope

namespace Scopes

def hides (scopes : Scopes) (name : String) : Bool := scopes.any (·.hidden.contains name)

/-- Names come into the innermost scope, or into that of the innermost function if they are hoisted.
Outside all scopes they are ignored. -/
def declare (hoisted : Bool) (names : List String) : Scopes → Scopes
  | [] => []
  | scope :: scopes =>
    if hoisted && !scope.function then scope :: declare hoisted names scopes
    else { scope with hidden := scope.hidden ++ names } :: scopes

end Scopes

structure Site where
  key : Span
  message : Span
  deriving DecidableEq, Repr

mutual
def isTarget (flavor : Flavor) (imports : Imports) (scopes : Scopes) : Node → Bool
  | .paren inner => isTarget flavor imports scopes inner
  | .sequence parts => isTargetLast flavor imports scopes parts
  | .dotted (.name known) property =>
    property == flavor.function && imports.modules.contains known && !scopes.hides known
  | .name text => imports.functions.contains text && !scopes.hides text
  | _ => false

def isTargetLast (flavor : Flavor) (imports : Imports) (scopes : Scopes) : List Node → Bool
  | [] => false
  | [p] => isTarget flavor imports scopes p
  | _ :: p :: ps => isTargetLast flavor imports scopes (p :: ps)
end

/-- The site of a call with these arguments: the first two must not be spread. -/
def siteOf? : List Node → Option Site
  | .argument false key _ :: .argument false message _ :: _ => some ⟨key, message⟩
  | _ => none

structure Walked where
  sites : List Site
  scopes : Scopes
  deriving Repr

namespace Walked

def andThen (first : Walked) (next : Scopes → Walked) : Walked :=
  let second := next first.scopes
  ⟨first.sites ++ second.sites, second.scopes⟩

def leave (walked : Walked) : Walked := { walked with scopes := walked.scopes.tail }

end Walked

mutual
def walk (flavor : Flavor) (imports : Imports) (scopes : Scopes) : Node → Walked
  | .name _ | .privateName _ _ | .importing _ _ => ⟨[], scopes⟩
  | .dotted object _ => walk flavor imports scopes object
  | .call callee arguments types =>
    let own := if isTarget flavor imports scopes callee then (siteOf? arguments).toList else []
    (Walked.mk own scopes).andThen fun scopes =>
      (walk flavor imports scopes callee).andThen fun scopes =>
      (walkAll flavor imports scopes arguments).andThen fun scopes =>
      walkAll flavor imports scopes types
  | .argument _ _ value => walk flavor imports scopes value
  | .paren inner => walk flavor imports scopes inner
  | .sequence parts => walkAll flavor imports scopes parts
  | .scope function names parts =>
    (walkAll flavor imports (⟨function, names.filter imports.contains⟩ :: scopes) parts).leave
  | .declare hoisted names parts =>
    walkAll flavor imports (scopes.declare hoisted (names.filter imports.contains)) parts
  | .classBody decorators heritage members types =>
    (walkAll flavor imports scopes decorators).andThen fun scopes =>
      (walkAll flavor imports scopes members).andThen fun scopes =>
      (walkAll flavor imports scopes heritage).andThen fun scopes =>
      walkAll flavor imports scopes types
  | .form _ parts => walkAll flavor imports scopes parts

def walkAll (flavor : Flavor) (imports : Imports) (scopes : Scopes) : List Node → Walked
  | [] => ⟨[], scopes⟩
  | p :: ps =>
    (walk flavor imports scopes p).andThen fun scopes => walkAll flavor imports scopes ps
end

/-- Sites in the order of their keys; of those whose keys begin at one place the first counts. -/
def orderSites (sites : List Site) : List Site :=
  (sites.mergeSort fun a b => a.key.start ≤ b.key.start).eraseRepsBy fun a b =>
    a.key.start == b.key.start

def sites (flavor : Flavor) (program : Program) : List Site :=
  let imports := Imports.ofProgram flavor program
  if imports.isEmpty then [] else orderSites (walkAll flavor imports [] program.body).sites

structure Call where
  flavor : Flavor
  key : String
  keyRange : Range
  message : String
  messageRange : Range
  deriving DecidableEq, Repr

def textAt (text : List Char) (span : Span) : String :=
  String.ofList ((slice? text span.start span.stop).getD [])

def Call.ofSite (flavor : Flavor) (text : List Char) (lines : LineIndex) (site : Site) : Call :=
  { flavor
    key := textAt text site.key
    keyRange := lines.range site.key.start site.key.stop
    message := textAt text site.message
    messageRange := lines.range site.message.start site.message.stop }

def calls (flavor : Flavor) (text : List Char) (program : Program) : List Call :=
  (sites flavor program).map (Call.ofSite flavor text (LineIndex.ofText text))

end BundlePrep.Message
