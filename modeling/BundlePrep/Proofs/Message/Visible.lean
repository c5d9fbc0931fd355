import BundlePrep.Proofs.Message.Recorded
import BundlePrep.Script.Program

/-!
# Recorded calls and the rule of the language

A call should be recorded exactly if no scope around it declares the name by which it goes. The walk
knows fewer scopes and fewer declarations than the language has, and a declaration only from the place
where it stands on. So a shadowed call is recorded where its declaration is not noticed, and a visible
one is missed where a declaration is noticed that belongs to another scope.
-/

set_option autoImplicit false

namespace BundlePrep.Message

open BundlePrep.Script

/-! ## Where the walk knows what the language knows -/

/-- Whether the walk knows all that a node means for scopes and names. -/
def isPlain : Node → Bool
  | .form .switchBody _ | .form .staticBlock _ | .form .accessorProperty _
  | .form .namespaceBody _ | .form .functionExpression (.name _ :: _)
  | .form .classExpression (.name _ :: _) | .form .decorator _ | .form .using _
  | .form .enumBody _ | .form .namespace _ | .form .importAlias _ => false
  | _ => true

/-- All nodes of a tree are known to the walk, and imports stand outside of all scopes. -/
structure Plain (root : Node) : Prop where
  nodes : ∀ p n, root.at? p = some n → isPlain n = true
  imports : ∀ p source bindings, root.at? p = some (.importing source bindings) →
    Scoping.lexical.scopesOn root p = []

def plainAt (root : Node) (p : Place) : Bool :=
  match root.at? p with
  | some (.importing _ _) => (Scoping.lexical.scopesOn root p).isEmpty
  | some n => isPlain n
  | none => true

theorem plain_iff {root : Node} : Plain root ↔ ∀ p ∈ root.places, plainAt root p = true := by
  constructor
  · rintro ⟨nodes, imports⟩ p -
    unfold plainAt
    split
    next found => rw [imports p _ _ found, List.isEmpty_nil]
    next n _ found => exact nodes p n found
    · rfl
  · intro all
    have known (p : Place) (n : Node) (found : root.at? p = some n) : plainAt root p = true :=
      all p (Node.mem_places found)
    constructor
    · intro p n found
      have plain := known p n found
      rw [plainAt, found] at plain
      cases n <;> first | rfl | exact plain
    · intro p source bindings found
      have empty := known p _ found
      rw [plainAt, found] at empty
      exact List.isEmpty_iff.1 empty

instance (root : Node) : Decidable (Plain root) := decidable_of_iff _ plain_iff.symm

example : Plain (Program.root ⟨true, [.importing "nls" [⟨"localize", some "localize"⟩],
    .declare false ["f"] [.scope true ["x"] [.form .parameter [.name "x"], .scope false []
      [.declare true ["y"] [.name "y", .call (.name "localize") [] []]]]]]⟩) := by
  decide +kernel

theorem isMark_eq_false {n : Node} {function : Bool} {names : List String} {parts : List Node}
    (shape : n = .scope function names parts)
    (nodes : ∀ p x, n.at? p = some x → isPlain x = true) (q : Place) :
    Scoping.isMark parts q = false := by
  subst shape
  unfold Scoping.isMark
  split
  next i q =>
    split
    next found =>
      have := nodes [.part i] _ (Option.bind_eq_some_iff.2 ⟨_, found, rfl⟩)
      cases this
    next marks j _ found =>
      split
      next inner =>
        have := nodes [.part i, .part j] _ (Option.bind_eq_some_iff.2
          ⟨_, found, Option.bind_eq_some_iff.2 ⟨_, inner, rfl⟩⟩)
        cases this
      · rfl
    · rfl
  · rfl

theorem around?_eq {n : Node} (nodes : ∀ p x, n.at? p = some x → isPlain x = true) (q : Place) :
    Scoping.lexical.around? n q = noticed.around? n q := by
  show Scoping.lexicalAround? n q = opens n
  have plain := nodes [] n rfl
  cases n with
  | scope function names parts =>
    simp [Scoping.lexicalAround?, isMark_eq_false rfl nodes, opens]
  | form f parts =>
    unfold Scoping.lexicalAround?
    split <;> simp_all [isPlain, opens]
  | _ => rfl

theorem scopesOn_eq {root : Node} (nodes : ∀ p x, root.at? p = some x → isPlain x = true)
    (q : Place) : Scoping.lexical.scopesOn root q = noticed.scopesOn root q := by
  induction q generalizing root with
  | nil => rfl
  | cons s q ih =>
    cases child : root.child? s with
    | none => rw [Scoping.scopesOn, Scoping.scopesOn, child]
    | some m =>
      rw [Scoping.scopesOn_cons child, Scoping.scopesOn_cons child, ih fun p x at_ =>
        nodes (s :: p) x (by rwa [Node.at?_cons, child]), around?_eq nodes]

theorem own_eq {n : Node} (plain : isPlain n = true) :
    Scoping.lexical.own n = noticed.own n := by
  show Scoping.lexicalOwn n = ownNames n
  cases n with
  | form f parts =>
    unfold Scoping.lexicalOwn
    split <;> simp_all [isPlain, ownNames]
  | _ => rfl

theorem declared?_eq {n : Node} (plain : isPlain n = true) :
    (∃ source bindings, n = .importing source bindings) ∨
      Scoping.lexical.declared? n = noticed.declared? n := by
  show _ ∨ Scoping.lexicalDeclared? n = declares? n
  cases n with
  | importing source bindings => exact .inl ⟨source, bindings, rfl⟩
  | form f parts =>
    right
    unfold Scoping.lexicalDeclared?
    split <;> simp_all [isPlain, declares?]
  | _ => exact .inr rfl

namespace Plain

variable {root : Node} {hoisted : Bool} {name : String} {p place : Place}

theorem home?_eq (h : Plain root) :
    Scoping.lexical.home? root hoisted p = noticed.home? root hoisted p := by
  rw [Scoping.home?, Scoping.home?, scopesOn_eq h.nodes]

theorem declaresAt_iff (h : Plain root) {scope : Place}
    (home : noticed.home? root hoisted p = some scope) :
    Scoping.lexical.DeclaresAt root p hoisted name ↔ noticed.DeclaresAt root p hoisted name := by
  refine exists_congr fun n => exists_congr fun names => and_congr_right fun at_ => ?_
  rcases declared?_eq (h.nodes p n at_) with ⟨source, bindings, rfl⟩ | same
  · -- An import outside of all scopes has no scope to come into.
    rw [← h.home?_eq, Scoping.home?, h.imports p source bindings at_] at home
    cases home
  · rw [same]

theorem hides_iff (h : Plain root) (counts : Place → Prop) :
    Scoping.lexical.Hides counts root place name ↔ noticed.Hides counts root place name := by
  rw [Scoping.Hides, Scoping.Hides, scopesOn_eq h.nodes]
  refine exists_congr fun scope => and_congr_right fun _ => or_congr ?_ ?_
  · refine exists_congr fun n => and_congr_right fun at_ => ?_
    rw [own_eq (h.nodes scope n at_)]
  · refine exists_congr fun p => exists_congr fun hoisted => and_congr_right fun _ => ?_
    rw [h.home?_eq]
    exact and_congr_left fun home => h.declaresAt_iff home

end Plain

/-! ## Recorded calls are visible -/

/-- Each recorded call goes by a name that is not noticed. No recorded call is shadowed exactly if all
shadowed names are noticed. In a plain tree a recorded call is shadowed only by declarations behind
it. -/
theorem recorded_unshadowed_iff (flavor : Flavor) (program : Program) :
    (∀ site ∈ sites flavor program, ∃ place name,
      CallAt flavor program place name site ∧ ¬Noticed program.root place name) ∧
    ((∀ place name site, CallAt flavor program place name site →
        Unrivalled flavor program place site → site ∈ sites flavor program →
        ¬Shadowed program.root place name) ↔
      ∀ place name site, CallAt flavor program place name site →
        Unrivalled flavor program place site → Shadowed program.root place name →
        Noticed program.root place name) ∧
    (Plain program.root → ∀ site ∈ sites flavor program, ∃ place name,
      CallAt flavor program place name site ∧
        ¬Scoping.lexical.Hides (fun p => p.Before place) program.root place name) := by
  refine ⟨fun site mem => exists_callAt mem, ⟨?_, ?_⟩, ?_⟩
  · intro unshadowed place name site call alone shadowed
    by_contra unnoticed
    exact unshadowed place name site call alone ((mem_sites_iff call alone).2 unnoticed) shadowed
  · intro noticed place name site call alone mem shadowed
    exact (mem_sites_iff call alone).1 mem (noticed place name site call alone shadowed)
  · intro plain site mem
    obtain ⟨place, name, call, unnoticed⟩ := exists_callAt mem
    exact ⟨place, name, call, fun hidden => unnoticed ((plain.hides_iff _).1 hidden)⟩

def twoTexts (key message : Span) : List Node :=
  [.argument false key (.form .literal []), .argument false message (.form .literal [])]

def hoisted : String :=
  "import \x7b localize \x7d from 'nls';\n" ++
    "function f() \x7b localize('k', 'v'); var localize = g; \x7d"

def hoistedProgram : Program :=
  ⟨true, [.importing "nls" [⟨"localize", some "localize"⟩], .declare false ["f"]
    [.scope true [] [.scope false []
      [.form .statement [.call (.name "localize") (twoTexts ⟨56, 59⟩ ⟨61, 64⟩) []],
        .declare true ["localize"] [.name "localize", .name "g"]]]]]⟩

/-- A call is recorded though a `var` of the same function declares the name by which it goes. -/
theorem recorded_hoisted :
    Program.parse? ⟨true, false⟩ hoisted.toList = some hoistedProgram ∧
      sites .blank hoistedProgram = [⟨⟨56, 59⟩, ⟨61, 64⟩⟩] ∧
      ¬∀ place name site, CallAt .blank hoistedProgram place name site →
        Unrivalled .blank hoistedProgram place site → site ∈ sites .blank hoistedProgram →
        ¬Shadowed hoistedProgram.root place name := by
  have parsed : Program.parse? ⟨true, false⟩ hoisted.toList = some hoistedProgram := by
    decide +kernel
  have recorded : sites .blank hoistedProgram = [⟨⟨56, 59⟩, ⟨61, 64⟩⟩] := by decide +kernel
  refine ⟨parsed, recorded, fun unshadowed => ?_⟩
  have call : CallAt .blank hoistedProgram [.part 1, .part 0, .part 0, .part 0, .part 0] "localize"
      ⟨⟨56, 59⟩, ⟨61, 64⟩⟩ :=
    ⟨_, _, _, _, _, rfl, .function
      ⟨rfl, _, _, List.mem_cons_self .., by decide +kernel, List.mem_cons_self ..⟩⟩
  exact unshadowed _ _ _ call (unrivalled_of_single (by decide +kernel))
    (recorded ▸ List.mem_singleton_self _) (by decide +kernel)

/-! ## Visible calls are recorded -/

/-- Where the key of a call begins that goes by an unnoticed name, a call is recorded. All visible
calls are recorded exactly if the names that are noticed are shadowed, and so they are in a plain
tree. -/
theorem visible_recorded_iff (flavor : Flavor) (program : Program) :
    (∀ place name site, CallAt flavor program place name site → ¬Noticed program.root place name →
      ∃ kept ∈ sites flavor program, kept.key.start = site.key.start) ∧
    ((∀ place name site, CallAt flavor program place name site →
        Unrivalled flavor program place site → ¬Shadowed program.root place name →
        site ∈ sites flavor program) ↔
      ∀ place name site, CallAt flavor program place name site →
        Unrivalled flavor program place site → Noticed program.root place name →
        Shadowed program.root place name) ∧
    (Plain program.root → ∀ place name site, CallAt flavor program place name site →
      Unrivalled flavor program place site → ¬Shadowed program.root place name →
      site ∈ sites flavor program) := by
  refine ⟨fun place name site => exists_mem_sites, ⟨?_, ?_⟩, ?_⟩
  · intro recorded place name site call alone noticed
    by_contra visible
    exact (mem_sites_iff call alone).1 (recorded place name site call alone visible) noticed
  · intro shadowed place name site call alone visible
    exact (mem_sites_iff call alone).2 fun noticed =>
      visible (shadowed place name site call alone noticed)
  · intro plain place name site call alone visible
    refine (mem_sites_iff call alone).2 fun noticed => visible ?_
    obtain ⟨scope, around, has⟩ := (plain.hides_iff _).2 noticed
    exact ⟨scope, around, has.imp_right fun ⟨p, hoisted, _, declares⟩ =>
      ⟨p, hoisted, trivial, declares⟩⟩

def switched : String :=
  "import \x7b localize \x7d from 'nls';\n" ++
    "function f(x) \x7b switch (x) \x7b case 0: let localize = x; \x7d localize('k', 'v'); \x7d"

def switchedProgram : Program :=
  ⟨true, [.importing "nls" [⟨"localize", some "localize"⟩], .declare false ["f"]
    [.scope true ["x"] [.form .parameter [.name "x"], .scope false []
      [.form .switchBody [.name "x", .form .literal [],
          .declare false ["localize"] [.name "localize", .name "x"]],
        .form .statement [.call (.name "localize") (twoTexts ⟨98, 101⟩ ⟨103, 106⟩) []]]]]]⟩

/-- A call behind a `switch` is missed because of a name that is declared inside of it. -/
theorem visible_switched :
    Program.parse? ⟨true, false⟩ switched.toList = some switchedProgram ∧
      sites .blank switchedProgram = [] ∧
      ¬∀ place name site, CallAt .blank switchedProgram place name site →
        Unrivalled .blank switchedProgram place site → ¬Shadowed switchedProgram.root place name →
        site ∈ sites .blank switchedProgram := by
  have parsed : Program.parse? ⟨true, false⟩ switched.toList = some switchedProgram := by
    decide +kernel
  have missed : sites .blank switchedProgram = [] := by decide +kernel
  refine ⟨parsed, missed, fun recorded => ?_⟩
  have call : CallAt .blank switchedProgram [.part 1, .part 0, .part 1, .part 1, .part 0] "localize"
      ⟨⟨98, 101⟩, ⟨103, 106⟩⟩ :=
    ⟨_, _, _, _, _, rfl, .function
      ⟨rfl, _, _, List.mem_cons_self .., by decide +kernel, List.mem_cons_self ..⟩⟩
  have mem := recorded _ _ _ call (unrivalled_of_single (by decide +kernel)) (by decide +kernel)
  rw [missed] at mem
  cases mem

end BundlePrep.Message
