import BundlePrep.Script.ModuleGrammar

/-!
# Programs

The goals of the grammar refer to each other. A bound on their depth, computed from the length of
the script, makes the grammar an ordinary recursive function: each level of nesting takes at least
one byte of the script and a fixed number of goals.
-/

set_option autoImplicit false

namespace BundlePrep.Script

namespace Parse

def goal (g : Grammar) : Grammar
  | .expression => expression g
  | .assignment => assignment g
  | .operation precedence => operations g precedence
  | .unary => unary g
  | .leftHand => leftHand g
  | .decorator => decoratorExpression g
  | .constructed => constructed g
  | .statement declarations => statementAt g declarations
  | .item => innerItem g
  | .type => type g
  | .plainType => plainType g
  | .binding => binding g
  | .markup => markup g

def grammar : Nat → Grammar
  | 0, _ => failure
  | depth + 1, nonterminal => goal (grammar depth) nonterminal

def program (g : Grammar) : Parse (List Node) := do
  let strict ← atStrictDirective
  topItems g strict

end Parse

def skipInterpreter : List Char → List Char × Nat
  | '#' :: '!' :: cs => go cs 2
  | cs => (cs, 0)
where
  go : List Char → Nat → List Char × Nat
    | c :: cs, pos => if isLineEnd c then (c :: cs, pos) else go cs (pos + c.utf8Size)
    | [], pos => ([], pos)

/-- How many goals deep a script of a given length may be. -/
def depthBound (size : Nat) : Nat := 12 * size + 64

/-- Parses a script; `none` if it has errors. A mark of the byte order in front is no part of the
script, so offsets count from behind it. -/
def Program.parse? (dialect : Dialect) (text : List Char) : Option Program := do
  let text := match text with
    | '\ufeff' :: rest => rest
    | text => text
  let size := byteSize text
  let (rest, pos) := skipInterpreter text
  let mode : Mode := { dialect, size }
  let (body, final) ←
    Parse.program (Parse.grammar (depthBound size)) mode (Cursor.seek rest pos pos true false false)
  if final.moduleItem && final.sloppy then none
  return ⟨final.moduleItem, body⟩

end BundlePrep.Script
