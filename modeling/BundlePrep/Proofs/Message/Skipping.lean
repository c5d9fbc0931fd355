import BundlePrep.Message.Extract
import BundlePrep.Proofs.Message.Cut
import BundlePrep.Proofs.Message.Visible
import BundlePrep.Proofs.Script.Spelling

/-!
# Scripts that are not parsed

A script that does not hold the word `localize` is left as it is without being parsed. Names are
compared behind their escapes, so such a script may still call a localization function: by a name
that is spelled with a backslash, and by no other.
-/

set_option autoImplicit false

namespace BundlePrep.Message

open BundlePrep.Script BundlePrep.Text

/-- What becomes of a script that is parsed whatever words it holds. -/
def extractParsed (dialect : Dialect) (moduleId code : String) :
    Except ExtractError Extraction :=
  match Program.parse? dialect code.toList with
  | none => .error .malformed
  | some program => do
    let found := allCalls code.toList program
    let entries ← found.mapM (entryOf moduleId)
    if entries.isEmpty then return ⟨code, []⟩
    return ⟨String.ofList (replaceKeys (.ofText code.toList) (found.zip entries)).toText, entries⟩

/-- The names behind the dots of a tree. -/
def memberNames (root : Node) : List String :=
  root.places.filterMap fun place =>
    match root.at? place with
    | some (.dotted _ property) => some property
    | _ => none

/-- The names under which a program imports from other modules. -/
def exportedNames (program : Program) : List String :=
  program.body.flatMap fun n =>
    match n with
    | .importing _ bindings => bindings.filterMap (·.exported)
    | _ => []

/-- The names behind the dots of a program, and those of what it imports, are read from its text.
The default export of a module has its name without a token, and a quoted text without a value has
none. -/
structure Written (text : List Char) (program : Program) : Prop where
  members : ∀ name ∈ memberNames program.root, ∃ spelling, Spells text spelling name
  imports : ∀ name ∈ exportedNames program,
    name = "default" ∨ name = "" ∨ ∃ spelling, Spells text spelling name

/-- A name that is spelled with an escape somewhere in a text. -/
def SpelledApart (text : List Char) (name : String) : Prop :=
  ∃ spelling, Spells text spelling name ∧ '\\' ∈ spelling

theorem extract_eq (dialect : Dialect) (moduleId code : String) :
    extract dialect moduleId code =
      if occursIn Flavor.blank.function.toList code.toList then extractParsed dialect moduleId code
      else .ok ⟨code, []⟩ := by
  cases named : occursIn Flavor.blank.function.toList code.toList
  · simp only [extract, named, Bool.not_false, if_true, Bool.false_eq_true, if_false]
  · simp only [extract, named, Bool.not_true, if_true, Bool.false_eq_true, if_false]
    rfl

section

variable {dialect : Dialect} {moduleId code : String} {program : Program}

theorem extractParsed_eq_iff (parsed : Program.parse? dialect code.toList = some program) :
    extractParsed dialect moduleId code = .ok ⟨code, []⟩ ↔
      allCalls code.toList program = [] := by
  simp only [extractParsed, parsed]
  constructor
  · intro same
    cases entries : (allCalls code.toList program).mapM (entryOf moduleId) with
    | error e => simp [entries, bind, Except.bind] at same
    | ok found =>
      have each := mapM_eq_ok entries
      simp only [entries, bind, Except.bind] at same
      split at same
      next empty =>
        obtain rfl := List.isEmpty_iff.1 empty
        generalize allCalls code.toList program = found at each
        cases each
        rfl
      next other =>
        have none := congrArg Extraction.entries (Except.ok.inj same)
        exact absurd (List.isEmpty_iff.2 none) other
  · intro none
    rw [none]
    rfl

theorem allCalls_eq_nil {text : List Char} :
    allCalls text program = [] ↔ ∀ flavor, calls flavor text program = [] := by
  rw [allCalls, ← List.length_eq_zero_iff, List.length_mergeSort, List.length_eq_zero_iff,
    List.flatMap_eq_nil_iff]
  exact ⟨fun none flavor => none flavor (mem_flavors flavor), fun none flavor _ => none flavor⟩

theorem CalledBy.exists_member {flavor : Flavor} {n : Node} {name : String}
    (h : CalledBy flavor program n name) :
    (∃ place object, n.at? place = some (.dotted object flavor.function)) ∨
      ImportsAs program (some flavor.function) name := by
  induction h with
  | member => exact .inl ⟨[], _, rfl⟩
  | function imported => exact .inr imported
  | paren _ ih =>
    refine ih.imp_left fun ⟨place, object, at_⟩ => ⟨.part 0 :: place, object, ?_⟩
    rw [Node.at?_cons]
    exact at_
  | @last front n name _ ih =>
    refine ih.imp_left fun ⟨place, object, at_⟩ => ⟨.part front.length :: place, object, ?_⟩
    rw [Node.at?_cons]
    simpa [Node.child?] using at_

theorem mem_memberNames {root object : Node} {place : Place} {property : String}
    (h : root.at? place = some (.dotted object property)) : property ∈ memberNames root :=
  List.mem_filterMap.2 ⟨place, Node.mem_places h, by rw [h]⟩

theorem mem_exportedNames {exported name : String}
    (h : ImportsAs program (some exported) name) : exported ∈ exportedNames program := by
  obtain ⟨-, source, bindings, mem, -, bound⟩ := h
  exact List.mem_flatMap.2 ⟨_, mem, List.mem_filterMap.2 ⟨_, bound, rfl⟩⟩

theorem Written.spells {text : List Char} (written : Written text program) {flavor : Flavor}
    {place : Place} {name : String} {site : Site} (call : CallAt flavor program place name site) :
    ∃ spelling, Spells text spelling flavor.function := by
  obtain ⟨callee, key, message, more, types, at_, called⟩ := call
  rcases called.exists_member with ⟨inner, object, member⟩ | imported
  · have deep : program.root.at? (place ++ .part 0 :: inner) =
        some (.dotted object flavor.function) := by
      rw [Node.at?_append, at_, Option.bind_some, Node.at?_cons]
      exact member
    exact written.members _ (mem_memberNames deep)
  · rcases written.imports _ (mem_exportedNames imported) with same | same | spells
    · cases flavor <;> exact absurd same (by decide)
    · cases flavor <;> exact absurd same (by decide)
    · exact spells

theorem occursIn_of_inside {text : List Char} {flavor : Flavor}
    (h : flavor.function.toList <:+: text) :
    occursIn Flavor.blank.function.toList text = true := by
  have begins : Flavor.blank.function.toList <+: flavor.function.toList := by
    cases flavor <;> decide
  obtain ⟨before, after, same⟩ := begins.isInfix.trans h
  exact occursIn_iff.2 ⟨before, after, same.symm⟩

theorem SpelledApart.backslash {text : List Char} {name : String} (h : SpelledApart text name) :
    '\\' ∈ text := by
  obtain ⟨spelling, ⟨rest, -, -, suffix, -⟩, backslash⟩ := h
  exact suffix.subset (List.mem_append_left rest backslash)

/-- A script without the word `localize` is left as it is. That is what becomes of it if it is parsed
exactly where no call is found. Whatever call there is goes by a name that is spelled with an
escape, so there is none in a script without a backslash. -/
theorem unparsed_agrees_iff (absent : occursIn Flavor.blank.function.toList code.toList = false)
    (parsed : Program.parse? dialect code.toList = some program)
    (written : Written code.toList program) :
    (extract dialect moduleId code = extractParsed dialect moduleId code ↔
        ∀ flavor, calls flavor code.toList program = []) ∧
      (∀ flavor place name site, CallAt flavor program place name site →
        SpelledApart code.toList flavor.function) ∧
      ('\\' ∉ code.toList →
        extract dialect moduleId code = extractParsed dialect moduleId code) := by
  have apart : ∀ flavor place name site, CallAt flavor program place name site →
      SpelledApart code.toList flavor.function := by
    intro flavor place name site call
    obtain ⟨spelling, spells⟩ := written.spells call
    refine ⟨spelling, spells, ?_⟩
    by_contra plain
    rw [occursIn_of_inside (spells.inside plain)] at absent
    cases absent
  have agrees : extract dialect moduleId code = extractParsed dialect moduleId code ↔
      ∀ flavor, calls flavor code.toList program = [] := by
    rw [extract_eq, absent, if_neg Bool.false_ne_true, eq_comm, extractParsed_eq_iff parsed,
      allCalls_eq_nil]
  refine ⟨agrees, apart, fun plain => agrees.2 fun flavor => ?_⟩
  refine List.map_eq_nil_iff.2 (List.eq_nil_iff_forall_not_mem.2 fun site mem => ?_)
  obtain ⟨place, name, call, -⟩ := exists_callAt mem
  exact plain (apart flavor place name site call).backslash

end

/-! ## Members with escapes -/

def memberScript (name key : String) : String :=
  "import * as nls from 'nls';\nnls." ++ name ++ "(" ++ key ++ ", 'v');"

theorem unparsed_agrees_member :
    let code := memberScript "\\u006cocal" "'k'"
    ∃ program, occursIn Flavor.blank.function.toList code.toList = false ∧
      Program.parse? ⟨true, false⟩ code.toList = some program ∧ Written code.toList program ∧
      extract ⟨true, false⟩ "m" code = extractParsed ⟨true, false⟩ "m" code := by
  intro code
  let program : Program := ⟨true, [.importing "nls" [⟨"nls", none⟩], .form .statement
    [.call (.dotted (.name "nls") "local") (twoTexts ⟨43, 46⟩ ⟨48, 51⟩) []]]⟩
  have absent : occursIn Flavor.blank.function.toList code.toList = false := by decide +kernel
  have parsed : Program.parse? ⟨true, false⟩ code.toList = some program := by decide +kernel
  have spells : Spells code.toList "\\u006cocal".toList "local" :=
    ⟨"('k', 'v');".toList, 0, _, by decide +kernel, rfl, by decide +kernel,
      .inl ⟨true, by decide +kernel⟩⟩
  have written : Written code.toList program := by
    have members : memberNames program.root = ["local"] := by decide +kernel
    have imports : exportedNames program = [] := by decide +kernel
    constructor
    · rw [members]
      exact List.forall_mem_singleton.2 ⟨_, spells⟩
    · rw [imports]
      exact List.forall_mem_nil _
  obtain ⟨agrees, -⟩ := @unparsed_agrees_iff ⟨true, false⟩ "m" code program absent parsed written
  have none : ∀ flavor, calls flavor code.toList program = [] := by
    intro flavor
    cases flavor <;> decide +kernel
  exact ⟨program, absent, parsed, written, agrees.2 none⟩

/-- The early return does not see the name, and loses the message. -/
theorem unparsed_loses_member :
    let code := memberScript "\\u006cocalize" "'k'"
    occursIn Flavor.blank.function.toList code.toList = false ∧
      (Program.parse? ⟨true, false⟩ code.toList).map (fun program =>
        (calls .blank code.toList program).map Call.key) = some ["'k'"] ∧
      extract ⟨true, false⟩ "m" code = .ok ⟨code, []⟩ ∧
      extractParsed ⟨true, false⟩ "m" code =
        .ok ⟨memberScript "\\u006cocalize" "\"%%NLS:m#k%%\"",
          [.ofCall .blank "m" (.plain "k") "v"]⟩ := by
  decide +kernel

end BundlePrep.Message
