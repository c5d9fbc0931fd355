import BundlePrep.Proofs.Message.Noticing
import BundlePrep.Proofs.Message.Numbering

/-!
# Recorded calls

A call of a localization function by a name is recorded exactly if the name is not noticed where the
call stands. Calls are told apart by the places of their keys in the text.
-/

set_option autoImplicit false

namespace BundlePrep.Message

open BundlePrep.Script

/-! ## Callees -/

/-- A module imports a name: the name stands for what the localization module exports under another
one, or for all of the localization module. -/
def ImportsAs (program : Program) (exported : Option String) (name : String) : Prop :=
  program.isModule = true ∧ ∃ source bindings, Node.importing source bindings ∈ program.body ∧
    isLocalizationModule source = true ∧ ⟨name, exported⟩ ∈ bindings

theorem mem_bindings {program : Program} {binding : ImportBinding} :
    binding ∈ (if program.isModule then program.body.flatMap Imports.bindingsOf else []) ↔
      ImportsAs program binding.exported binding.bound := by
  by_cases isModule : program.isModule = true
  · simp only [isModule, if_true, List.mem_flatMap, ImportsAs, true_and]
    constructor
    · rintro ⟨n, mem, bound⟩
      unfold Imports.bindingsOf at bound
      split at bound
      next source bindings =>
        split at bound
        next known => exact ⟨source, bindings, mem, known, bound⟩
        next => cases bound
      next => cases bound
    · rintro ⟨source, bindings, mem, known, bound⟩
      exact ⟨_, mem, by rwa [Imports.bindingsOf, if_pos known]⟩
  · simp [isModule, ImportsAs]

theorem mem_modules {flavor : Flavor} {program : Program} {name : String} :
    name ∈ (Imports.ofProgram flavor program).modules ↔ ImportsAs program none name := by
  simp only [Imports.ofProgram, List.mem_map, List.mem_filter, mem_bindings, beq_iff_eq]
  constructor
  · rintro ⟨⟨bound, exported⟩, ⟨imported, rfl⟩, rfl⟩
    exact imported
  · exact fun imported => ⟨⟨name, none⟩, ⟨imported, rfl⟩, rfl⟩

theorem mem_functions {flavor : Flavor} {program : Program} {name : String} :
    name ∈ (Imports.ofProgram flavor program).functions ↔
      ImportsAs program (some flavor.function) name := by
  simp only [Imports.ofProgram, List.mem_map, List.mem_filter, mem_bindings, beq_iff_eq]
  constructor
  · rintro ⟨⟨bound, exported⟩, ⟨imported, rfl⟩, rfl⟩
    exact imported
  · exact fun imported => ⟨⟨name, some flavor.function⟩, ⟨imported, rfl⟩, rfl⟩

/-- A callee is the localization function by an imported name: a member of the whole module, or the
name of the function, in parentheses or at the end of a sequence. -/
inductive CalledBy (flavor : Flavor) (program : Program) : Node → String → Prop where
  | member {name : String} (imported : ImportsAs program none name) :
    CalledBy flavor program (.dotted (.name name) flavor.function) name
  | function {name : String} (imported : ImportsAs program (some flavor.function) name) :
    CalledBy flavor program (.name name) name
  | paren {inner : Node} {name : String} :
    CalledBy flavor program inner name → CalledBy flavor program (.paren inner) name
  | last {front : List Node} {n : Node} {name : String} :
    CalledBy flavor program n name → CalledBy flavor program (.sequence (front ++ [n])) name

section

variable {flavor : Flavor} {program : Program} {n : Node} {name : String}

theorem CalledBy.imported (h : CalledBy flavor program n name) :
    (Imports.ofProgram flavor program).contains name = true := by
  induction h with
  | member imported => simp [Imports.contains, mem_modules.2 imported]
  | function imported => simp [Imports.contains, mem_functions.2 imported]
  | paren _ ih => exact ih
  | last _ ih => exact ih

theorem CalledBy.of_last {front : List Node}
    (h : CalledBy flavor program (.sequence (front ++ [n])) name) : CalledBy flavor program n name := by
  generalize whole : front ++ [n] = parts at h
  cases h with
  | last inner =>
    obtain ⟨-, same⟩ := List.append_inj' whole rfl
    obtain rfl := (List.cons.inj same).1
    exact inner

theorem CalledBy.unique {name' : String} (h : CalledBy flavor program n name)
    (h' : CalledBy flavor program n name') : name = name' := by
  induction h with
  | member => cases h'; rfl
  | function => cases h'; rfl
  | paren _ ih => cases h' with | paren inner => exact ih inner
  | last _ ih => exact ih h'.of_last

mutual
theorem isTarget_iff (scopes : Scopes) : (n : Node) →
    (isTarget flavor (.ofProgram flavor program) scopes n = true ↔
      ∃ name, CalledBy flavor program n name ∧ scopes.hides name = false)
  | .paren inner => by
    rw [isTarget, isTarget_iff scopes inner]
    constructor
    · rintro ⟨name, called, visible⟩
      exact ⟨name, .paren called, visible⟩
    · rintro ⟨name, called, visible⟩
      cases called with
      | paren inner => exact ⟨name, inner, visible⟩
  | .sequence parts => by
    rw [isTarget, isTargetLast_iff scopes parts]
    constructor
    · rintro ⟨front, n, name, rfl, called, visible⟩
      exact ⟨name, .last called, visible⟩
    · rintro ⟨name, called, visible⟩
      cases called with
      | @last front n _ inner => exact ⟨front, n, name, rfl, inner, visible⟩
  | .name text => by
    simp only [isTarget, Bool.and_eq_true, List.contains_iff_mem, mem_functions,
      Bool.not_eq_true']
    constructor
    · rintro ⟨imported, visible⟩
      exact ⟨text, .function imported, visible⟩
    · rintro ⟨name, called, visible⟩
      cases called with
      | function imported => exact ⟨imported, visible⟩
  | .dotted object property => by
    constructor
    · intro target
      cases object <;> simp only [isTarget, Bool.and_eq_true, beq_iff_eq, List.contains_iff_mem,
        mem_modules, Bool.not_eq_true', Bool.false_eq_true] at target
      obtain ⟨⟨rfl, imported⟩, visible⟩ := target
      exact ⟨_, .member imported, visible⟩
    · rintro ⟨name, called, visible⟩
      cases called with
      | member imported => simp [isTarget, mem_modules.2 imported, visible]
  | .privateName _ _ | .call _ _ _ | .argument _ _ _ | .scope _ _ _ | .declare _ _ _
  | .classBody _ _ _ _ | .importing _ _ | .form _ _ => by
    simp only [isTarget, Bool.false_eq_true, false_iff]
    rintro ⟨name, called, -⟩
    cases called

theorem isTargetLast_iff (scopes : Scopes) : (parts : List Node) →
    (isTargetLast flavor (.ofProgram flavor program) scopes parts = true ↔
      ∃ front n name, parts = front ++ [n] ∧ CalledBy flavor program n name ∧
        scopes.hides name = false)
  | [] => by simp [isTargetLast]
  | [n] => by
    rw [isTargetLast, isTarget_iff scopes n]
    constructor
    · rintro ⟨name, found⟩
      exact ⟨[], n, name, rfl, found⟩
    · rintro ⟨front, m, name, whole, found⟩
      rw [← List.nil_append [n]] at whole
      obtain ⟨-, same⟩ := List.append_inj' whole rfl
      obtain rfl := (List.cons.inj same).1
      exact ⟨name, found⟩
  | n :: m :: parts => by
    rw [isTargetLast, isTargetLast_iff scopes (m :: parts)]
    constructor
    · rintro ⟨front, k, name, whole, found⟩
      exact ⟨n :: front, k, name, congrArg (n :: ·) whole, found⟩
    · rintro ⟨front, k, name, whole, found⟩
      cases front with
      | nil => cases whole
      | cons n' front => exact ⟨front, k, name, (List.cons.inj whole).2, found⟩
end

end

/-! ## Calls and their sites -/

/-- A call of a localization function stands at a place: its callee goes by an imported name, and its
first two arguments are not spread. -/
def CallAt (flavor : Flavor) (program : Program) (place : Place) (name : String) (site : Site) :
    Prop :=
  ∃ callee key message more types,
    program.root.at? place = some (.call callee
      (.argument false site.key key :: .argument false site.message message :: more) types) ∧
    CalledBy flavor program callee name

/-- No call at another place has a key that begins where that of a site does. -/
def Unrivalled (flavor : Flavor) (program : Program) (place : Place) (site : Site) : Prop :=
  ∀ place' name' site', CallAt flavor program place' name' site' →
    site'.key.start = site.key.start → place' = place

theorem siteOf?_eq_some {arguments : List Node} {site : Site} :
    siteOf? arguments = some site ↔ ∃ key message more,
      arguments = .argument false site.key key :: .argument false site.message message :: more := by
  unfold siteOf?
  split
  next key k message m more =>
    constructor
    · intro same
      obtain rfl := Option.some.inj same
      exact ⟨_, _, _, rfl⟩
    · rintro ⟨_, _, _, same⟩
      cases same
      rfl
  next other =>
    constructor
    · intro none
      cases none
    · rintro ⟨_, _, _, rfl⟩
      exact (other _ _ _ _ _ rfl).elim

section

variable {flavor : Flavor} {program : Program} {place : Place} {name : String} {site : Site}

theorem CallAt.unique {name' : String} {site' : Site} (h : CallAt flavor program place name site)
    (h' : CallAt flavor program place name' site') : name = name' ∧ site = site' := by
  obtain ⟨callee, _, _, _, _, at_, called⟩ := h
  obtain ⟨callee', _, _, _, _, at', called'⟩ := h'
  obtain ⟨rfl, arguments, -⟩ := Node.call.inj (Option.some.inj (at_.symm.trans at'))
  simp only [List.cons.injEq, Node.argument.injEq, true_and] at arguments
  refine ⟨called.unique called', ?_⟩
  cases site
  cases site'
  simp_all

theorem mem_walked :
    site ∈ (walkAll flavor (.ofProgram flavor program) [] program.body).sites ↔
      ∃ place name, CallAt flavor program place name site ∧ ¬Noticed program.root place name := by
  have root : walkAll flavor (.ofProgram flavor program) [] program.body =
      walk flavor (.ofProgram flavor program) [] program.root := by
    rw [Program.root, walk]
  have hidden {place : Place} {x : Node} (at_ : program.root.at? place = some x) {name : String}
      (known : (Imports.ofProgram flavor program).contains name = true) :
      (scopesAt flavor (.ofProgram flavor program) [] program.root place).hides name = false ↔
        ¬Noticed program.root place name := by
    rw [← Bool.not_eq_true, hides_scopesAt known at_]
    simp [Scopes.hides, Scopes.functions, Scopes.taker?]
  rw [root, mem_sites_walk]
  constructor
  · rintro ⟨place, callee, arguments, types, at_, target, found⟩
    obtain ⟨name, called, visible⟩ := (isTarget_iff _ callee).1 target
    obtain ⟨key, message, more, rfl⟩ := siteOf?_eq_some.1 found
    exact ⟨place, name, ⟨callee, key, message, more, types, at_, called⟩,
      (hidden at_ called.imported).1 visible⟩
  · rintro ⟨place, name, ⟨callee, key, message, more, types, at_, called⟩, visible⟩
    exact ⟨place, callee, _, types, at_,
      (isTarget_iff _ callee).2 ⟨name, called, (hidden at_ called.imported).2 visible⟩, rfl⟩

theorem CallAt.not_isEmpty (h : CallAt flavor program place name site) :
    (Imports.ofProgram flavor program).isEmpty = false := by
  obtain ⟨_, _, _, _, _, -, called⟩ := h
  have known := called.imported
  cases modules : (Imports.ofProgram flavor program).modules <;>
    cases functions : (Imports.ofProgram flavor program).functions <;>
      simp_all [Imports.isEmpty, Imports.contains]

theorem mem_of_mem_orderSites {sites : List Site} (h : site ∈ orderSites sites) : site ∈ sites :=
  List.mem_mergeSort.1 (mem_of_mem_eraseRepsBy h)

theorem exists_mem_orderSites {sites : List Site} (h : site ∈ sites) :
    ∃ kept ∈ orderSites sites, kept.key.start = site.key.start :=
  exists_mem_eraseRepsBy (fun site : Site => site.key.start) (List.mem_mergeSort.2 h)

theorem exists_callAt (h : site ∈ sites flavor program) :
    ∃ place name, CallAt flavor program place name site ∧ ¬Noticed program.root place name := by
  rw [sites] at h
  split at h
  · cases h
  · exact mem_walked.1 (mem_of_mem_orderSites h)

theorem exists_mem_sites (call : CallAt flavor program place name site)
    (visible : ¬Noticed program.root place name) :
    ∃ kept ∈ sites flavor program, kept.key.start = site.key.start := by
  rw [sites, call.not_isEmpty, if_neg Bool.false_ne_true]
  exact exists_mem_orderSites (mem_walked.2 ⟨place, name, call, visible⟩)

theorem mem_sites_iff (call : CallAt flavor program place name site)
    (alone : Unrivalled flavor program place site) :
    site ∈ sites flavor program ↔ ¬Noticed program.root place name := by
  constructor
  · intro mem
    obtain ⟨place', name', call', visible⟩ := exists_callAt mem
    obtain rfl := alone _ _ _ call' rfl
    rwa [(call.unique call').1]
  · intro visible
    obtain ⟨kept, mem, start⟩ := exists_mem_sites call visible
    obtain ⟨place', name', call', -⟩ := exists_callAt mem
    obtain rfl := alone _ _ _ call' start
    rwa [(call.unique call').2]

def callPlaces (root : Node) : List Place :=
  root.places.filter fun p => root.at? p matches some (.call _ _ _)

theorem CallAt.mem_callPlaces (h : CallAt flavor program place name site) :
    place ∈ callPlaces program.root := by
  obtain ⟨_, _, _, _, _, at_, -⟩ := h
  rw [callPlaces, List.mem_filter, at_]
  exact ⟨Node.mem_places at_, rfl⟩

theorem unrivalled_of_single (single : callPlaces program.root = [place]) :
    Unrivalled flavor program place site := by
  intro place' name' site' call _
  have mem := call.mem_callPlaces
  rw [single] at mem
  exact List.mem_singleton.1 mem

end

end BundlePrep.Message
