import BundlePrep.Message.Call
import BundlePrep.Proofs.Script.Scoping

/-!
# The names that a walk notices

The walk for calls comes to the parts of a node one behind the other and takes the scopes along. What
they hide at a place is told by a rule of scoping: the names that the scopes around the place have of
their own, and those that came into them by declarations before the place.
-/

set_option autoImplicit false

namespace BundlePrep.Script

/-! ## The order of the parts -/

theorem Step.Before.irrefl (s : Step) : ¬s.Before s := by
  simp [Before]

theorem Step.Before.asymm {s t : Step} (h : s.Before t) : ¬t.Before s := by
  unfold Before at *
  omega

namespace Node

def indexed (step : Nat → Step) (parts : List Node) : List (Step × Node) :=
  parts.mapIdx fun i part => (step i, part)

def visit : Node → List (Step × Node)
  | .name _ | .privateName _ _ | .importing _ _ => []
  | .dotted inner _ | .argument _ _ inner | .paren inner => indexed .part [inner]
  | .call callee arguments types => indexed .part (callee :: (arguments ++ types))
  | .sequence parts | .scope _ _ parts | .declare _ _ parts | .form _ parts => indexed .part parts
  | .classBody decorators heritage members types =>
    indexed .decorator decorators ++ (indexed .member members ++
      (indexed .heritage heritage ++ indexed .type types))

def before (n : Node) (s : Step) : List Node :=
  (n.visit.filter fun part => decide (part.1.Before s)).map Prod.snd

theorem mem_indexed {step : Nat → Step} {parts : List Node} {s : Step} {m : Node} :
    (s, m) ∈ indexed step parts ↔ ∃ i, step i = s ∧ parts[i]? = some m := by
  simp only [indexed, List.mem_mapIdx, Prod.mk.injEq]
  constructor
  · rintro ⟨i, inside, rfl, rfl⟩
    exact ⟨i, rfl, List.getElem?_eq_getElem inside⟩
  · rintro ⟨i, rfl, found⟩
    obtain ⟨inside, rfl⟩ := List.getElem?_eq_some_iff.1 found
    exact ⟨i, inside, rfl, rfl⟩

theorem map_snd_indexed (step : Nat → Step) (parts : List Node) :
    (indexed step parts).map Prod.snd = parts := by
  refine List.ext_getElem (by simp [indexed]) fun i _ _ => ?_
  simp [indexed]

theorem mem_visit {n m : Node} {s : Step} : (s, m) ∈ n.visit ↔ n.child? s = some m := by
  cases n <;> cases s <;> simp [visit, child?, mem_indexed]
  case dotted.part i | argument.part i | paren.part i => cases i <;> simp

theorem sorted_indexed {step : Nat → Step} (sorted : ∀ i j, i < j → (step i).Before (step j))
    (parts : List Node) : (indexed step parts).Pairwise fun a b => a.1.Before b.1 := by
  rw [List.pairwise_iff_getElem]
  intro i j _ _ less
  simpa [indexed] using sorted i j less

theorem sorted_visit (n : Node) : n.visit.Pairwise fun a b => a.1.Before b.1 := by
  have sorted {step : Nat → Step} (kind : ∀ i j, (step i).kind = (step j).kind)
      (index : ∀ i, (step i).index = i) (parts : List Node) :
      (indexed step parts).Pairwise fun a b => a.1.Before b.1 :=
    sorted_indexed (fun i j less => .inr ⟨kind i j, by rwa [index, index]⟩) parts
  cases n with
  | name | privateName | importing => exact List.Pairwise.nil
  | dotted | argument | paren | call | sequence | scope | declare | form =>
    exact sorted (fun _ _ => rfl) (fun _ => rfl) _
  | classBody decorators heritage members types =>
    have apart {step step' : Nat → Step} (kinds : ∀ i j, (step i).kind < (step' j).kind)
        {parts parts' : List Node} : ∀ a ∈ indexed step parts, ∀ b ∈ indexed step' parts',
          a.1.Before b.1 := by
      rintro ⟨_, _⟩ ha ⟨_, _⟩ hb
      obtain ⟨i, rfl, -⟩ := mem_indexed.1 ha
      obtain ⟨j, rfl, -⟩ := mem_indexed.1 hb
      exact .inl (kinds i j)
    simp only [visit, List.pairwise_append, List.mem_append, or_imp, forall_and]
    refine ⟨sorted ?_ ?_ _, ⟨sorted ?_ ?_ _, ⟨sorted ?_ ?_ _, sorted ?_ ?_ _, apart ?_⟩,
      apart ?_, apart ?_⟩, apart ?_, apart ?_, apart ?_⟩
    all_goals simp [Step.kind, Step.index]

theorem mem_before {n k : Node} {s : Step} :
    k ∈ n.before s ↔ ∃ t, t.Before s ∧ n.child? t = some k := by
  simp [before, mem_visit, and_comm]

theorem before_eq {n m : Node} {s : Step} {front back : List (Step × Node)}
    (h : n.visit = front ++ (s, m) :: back) : n.before s = front.map Prod.snd := by
  have sorted := sorted_visit n
  rw [h, List.pairwise_append, List.pairwise_cons] at sorted
  obtain ⟨-, ⟨behind, -⟩, ahead⟩ := sorted
  have first : front.filter (fun part => decide (part.1.Before s)) = front :=
    List.filter_eq_self.2 fun part mem => decide_eq_true (ahead part mem _ (List.mem_cons_self ..))
  have last : ((s, m) :: back).filter (fun part => decide (part.1.Before s)) = [] := by
    refine List.filter_eq_nil_iff.2 fun part mem => ?_
    rw [decide_eq_true_eq]
    rcases List.mem_cons.1 mem with rfl | mem
    · exact Step.Before.irrefl s
    · exact (behind part mem).asymm
  rw [before, h, List.filter_append, first, last, List.append_nil]

end Node

end BundlePrep.Script

namespace BundlePrep.Message

open BundlePrep.Script

/-! ## Scopes -/

namespace Scopes

def functions (scopes : Scopes) : List Bool := scopes.map (·.function)

def taker? (hoisted : Bool) (functions : List Bool) : Option Nat :=
  functions.findIdx? (Scoping.takes hoisted)

def HidesAt (scopes : Scopes) (i : Nat) (name : String) : Prop :=
  ∃ scope, scopes[i]? = some scope ∧ name ∈ scope.hidden

section

variable {scopes : Scopes} {scope : Scope} {hoisted function : Bool} {outer : List Bool}
  {names : List String} {name : String} {i : Nat}

theorem hides_iff : scopes.hides name = true ↔ ∃ i, scopes.HidesAt i name := by
  simp only [hides, List.any_eq_true, List.contains_iff_mem, HidesAt, List.mem_iff_getElem?]
  constructor
  · rintro ⟨scope, ⟨i, found⟩, mem⟩
    exact ⟨i, scope, found, mem⟩
  · rintro ⟨i, scope, found, mem⟩
    exact ⟨scope, ⟨i, found⟩, mem⟩

theorem hidesAt_cons_zero : HidesAt (scope :: scopes) 0 name ↔ name ∈ scope.hidden := by
  simp [HidesAt]

theorem hidesAt_cons_succ : HidesAt (scope :: scopes) (i + 1) name ↔ HidesAt scopes i name := by
  simp [HidesAt]

theorem hidesAt_tail : HidesAt scopes.tail i name ↔ HidesAt scopes (i + 1) name := by
  simp [HidesAt]

theorem hides_cons :
    hides (scope :: scopes) name = true ↔ name ∈ scope.hidden ∨ hides scopes name = true := by
  simp [hides]

theorem functions_cons : functions (scope :: scopes) = scope.function :: functions scopes := rfl

theorem taker?_cons_zero :
    taker? hoisted (function :: outer) = some 0 ↔ Scoping.takes hoisted function = true := by
  cases taken : Scoping.takes hoisted function <;> simp [taker?, List.findIdx?_cons, taken]

theorem taker?_cons_succ : taker? hoisted (function :: outer) = some (i + 1) ↔
    Scoping.takes hoisted function = false ∧ taker? hoisted outer = some i := by
  cases taken : Scoping.takes hoisted function <;> simp [taker?, List.findIdx?_cons, taken]

theorem isSome_taker?_cons : (taker? hoisted (function :: outer)).isSome = true ↔
    Scoping.takes hoisted function = true ∨ (taker? hoisted outer).isSome = true := by
  simp [taker?]

theorem functions_declare : functions (declare hoisted names scopes) = functions scopes := by
  induction scopes with
  | nil => rfl
  | cons scope scopes ih =>
    rw [declare]
    split
    · rw [functions_cons, functions_cons, ih]
    · rfl

theorem hidesAt_declare : HidesAt (declare hoisted names scopes) i name ↔
    HidesAt scopes i name ∨ name ∈ names ∧ taker? hoisted (functions scopes) = some i := by
  induction scopes generalizing i with
  | nil => simp [declare, HidesAt, taker?, functions]
  | cons scope scopes ih =>
    have passed : (hoisted && !scope.function) = !Scoping.takes hoisted scope.function := by
      cases hoisted <;> cases scope.function <;> rfl
    rw [declare, passed, functions_cons]
    cases taken : Scoping.takes hoisted scope.function <;> cases i with
    | zero => simp [hidesAt_cons_zero, taker?_cons_zero, taken]
    | succ i => simp [hidesAt_cons_succ, taker?_cons_succ, taken, ih]

theorem hides_declare : hides (declare hoisted names scopes) name = true ↔
    hides scopes name = true ∨
      name ∈ names ∧ (taker? hoisted (functions scopes)).isSome = true := by
  simp only [hides_iff, hidesAt_declare, exists_or, exists_and_left, Option.isSome_iff_exists]

end

end Scopes

/-! ## The steps of the walk -/

section

variable (flavor : Flavor) (imports : Imports)

def entered (scopes : Scopes) : Node → Scopes
  | .scope function names _ => ⟨function, names.filter imports.contains⟩ :: scopes
  | .declare hoisted names _ => scopes.declare hoisted (names.filter imports.contains)
  | _ => scopes

def left (scopes : Scopes) : Node → Scopes
  | .scope _ _ _ => scopes.tail
  | _ => scopes

def ownSites (scopes : Scopes) : Node → List Site
  | .call callee arguments _ =>
    if isTarget flavor imports scopes callee then (siteOf? arguments).toList else []
  | _ => []

theorem walkAll_append (scopes : Scopes) (a b : List Node) :
    walkAll flavor imports scopes (a ++ b) =
      (walkAll flavor imports scopes a).andThen fun scopes => walkAll flavor imports scopes b := by
  induction a generalizing scopes with
  | nil => simp [walkAll, Walked.andThen]
  | cons n a ih => simp [walkAll, Walked.andThen, ih]

theorem walkAll_singleton (scopes : Scopes) (n : Node) :
    walkAll flavor imports scopes [n] = walk flavor imports scopes n := by
  simp [walkAll, Walked.andThen]

theorem walk_eq (scopes : Scopes) (n : Node) :
    walk flavor imports scopes n =
      let inner := walkAll flavor imports (entered imports scopes n) (n.visit.map Prod.snd)
      ⟨ownSites flavor imports scopes n ++ inner.sites, left inner.scopes n⟩ := by
  cases n with
  | name | privateName | importing => rfl
  | dotted object _ | argument _ _ object | paren object =>
    simp [walk, entered, left, ownSites, Node.visit, Node.map_snd_indexed, walkAll_singleton]
  | call callee arguments types =>
    simp [walk, entered, left, ownSites, Node.visit, Node.map_snd_indexed, walkAll,
      walkAll_append, Walked.andThen]
  | sequence | scope | declare | form =>
    simp [walk, entered, left, ownSites, Node.visit, Node.map_snd_indexed, Walked.leave]
  | classBody decorators heritage members types =>
    simp [walk, entered, left, ownSites, Node.visit, Node.map_snd_indexed, walkAll_append,
      Walked.andThen]

def scopesAt (scopes : Scopes) (n : Node) : Place → Scopes
  | [] => scopes
  | s :: q =>
    match n.child? s with
    | none => scopes
    | some m =>
      scopesAt (walkAll flavor imports (entered imports scopes n) (n.before s)).scopes m q

end

/-! ## The rule of the walk -/

def opens : Node → Option Bool
  | .scope function _ _ => some function
  | _ => none

def ownNames : Node → List String
  | .scope _ names _ => names
  | _ => []

def declares? : Node → Option (Bool × List String)
  | .declare hoisted names _ => some (hoisted, names)
  | _ => none

/-- The rule by which the walk knows scopes and names. All of a function stands in its scope. -/
def noticed : Scoping := ⟨fun n _ => opens n, ownNames, declares?⟩

/-- A name is noticed at a place: some scope around the place has it of its own or by a declaration
in front of the place. -/
def Noticed (root : Node) (place : Place) (name : String) : Prop :=
  noticed.Hides (fun p => p.Before place) root place name

def Takes (n : Node) (hoisted : Bool) : Prop := (opens n).any (Scoping.takes hoisted) = true

def DeclaresName (n : Node) (hoisted : Bool) (name : String) : Prop :=
  ∃ names, declares? n = some (hoisted, names) ∧ name ∈ names

def EscapesBefore (n : Node) (place : Place) (hoisted : Bool) (name : String) : Prop :=
  ∃ p, p.Before place ∧ noticed.DeclaresAt n p hoisted name ∧ noticed.home? n hoisted p = none

def Escapes (n : Node) (hoisted : Bool) (name : String) : Prop :=
  ∃ p, noticed.DeclaresAt n p hoisted name ∧ noticed.home? n hoisted p = none

def EscapesUpTo (n : Node) (s : Step) (m : Node) (place : Place) (hoisted : Bool) (name : String) :
    Prop :=
  (∃ k ∈ n.before s, Escapes k hoisted name) ∨ EscapesBefore m place hoisted name

section

variable {n m : Node} {s : Step} {q : Place} {hoisted : Bool} {name : String}

theorem takes_scope {function : Bool} {names : List String} {parts : List Node} :
    Takes (.scope function names parts) hoisted ↔ Scoping.takes hoisted function = true := by
  simp [Takes, opens]

theorem not_takes_declare {h : Bool} {names : List String} {parts : List Node} :
    ¬Takes (.declare h names parts) hoisted := by
  simp [Takes, opens]

theorem not_declaresName_scope {function : Bool} {names : List String} {parts : List Node} :
    ¬DeclaresName (.scope function names parts) hoisted name := by
  simp [DeclaresName, declares?]

theorem declaresName_declare {h : Bool} {names : List String} {parts : List Node} :
    DeclaresName (.declare h names parts) hoisted name ↔ h = hoisted ∧ name ∈ names := by
  simp [DeclaresName, declares?]

theorem not_noticed_nil : ¬Noticed n [] name := by
  rintro ⟨scope, mem, -⟩
  cases mem

theorem not_escapesBefore_nil : ¬EscapesBefore n [] hoisted name := by
  rintro ⟨p, before, -⟩
  cases p <;> exact before

theorem home?_eq_none_cons (child : n.child? s = some m) :
    noticed.home? n hoisted (s :: q) = none ↔ ¬Takes n hoisted ∧ noticed.home? m hoisted q = none := by
  rw [Scoping.home?_cons child, Option.or_eq_none_iff, Option.map_eq_none_iff, and_comm, Takes]
  refine and_congr_left fun _ => ?_
  split <;> simp_all [noticed]

theorem escapes_iff : Escapes n hoisted name ↔ DeclaresName n hoisted name ∨
    ¬Takes n hoisted ∧ ∃ s m, n.child? s = some m ∧ Escapes m hoisted name := by
  constructor
  · rintro ⟨p, declares, free⟩
    cases p with
    | nil => exact .inl (Scoping.declaresAt_nil.1 declares)
    | cons s q =>
      obtain ⟨m, child, under⟩ := declares.child
      obtain ⟨open_, free⟩ := (home?_eq_none_cons child).1 free
      exact .inr ⟨open_, s, m, child, q, under, free⟩
  · rintro (own | ⟨open_, s, m, child, q, under, free⟩)
    · exact ⟨[], Scoping.declaresAt_nil.2 own, rfl⟩
    · exact ⟨s :: q, (Scoping.declaresAt_cons child).2 under,
        (home?_eq_none_cons child).2 ⟨open_, free⟩⟩

/-- Before a place in a part come the node itself, the parts in front, and what is before it in the
part. -/
theorem escapesBefore_cons (child : n.child? s = some m) :
    EscapesBefore n (s :: q) hoisted name ↔
      DeclaresName n hoisted name ∨ ¬Takes n hoisted ∧ EscapesUpTo n s m q hoisted name := by
  constructor
  · rintro ⟨p, before, declares, free⟩
    cases p with
    | nil => exact .inl (Scoping.declaresAt_nil.1 declares)
    | cons t r =>
      obtain ⟨k, child', under⟩ := declares.child
      obtain ⟨open_, free⟩ := (home?_eq_none_cons child').1 free
      refine .inr ⟨open_, ?_⟩
      rcases before with earlier | ⟨rfl, before⟩
      · exact .inl ⟨k, Node.mem_before.2 ⟨t, earlier, child'⟩, r, under, free⟩
      · obtain rfl := Option.some.inj (child.symm.trans child')
        exact .inr ⟨r, before, under, free⟩
  · rintro (own | ⟨open_, ⟨k, mem, r, under, free⟩ | ⟨r, before, under, free⟩⟩)
    · exact ⟨[], trivial, Scoping.declaresAt_nil.2 own, rfl⟩
    · obtain ⟨t, earlier, child'⟩ := Node.mem_before.1 mem
      exact ⟨t :: r, .inl earlier, (Scoping.declaresAt_cons child').2 under,
        (home?_eq_none_cons child').2 ⟨open_, free⟩⟩
    · exact ⟨s :: r, .inr ⟨rfl, before⟩, (Scoping.declaresAt_cons child).2 under,
        (home?_eq_none_cons child).2 ⟨open_, free⟩⟩

theorem home?_eq_nil_cons (child : n.child? s = some m) :
    noticed.home? n hoisted (s :: q) = some [] ↔
      Takes n hoisted ∧ noticed.home? m hoisted q = none := by
  rw [Scoping.home?_cons child, Takes]
  cases noticed.home? m hoisted q with
  | none => split <;> simp_all [noticed]
  | some scope => simp

theorem home?_eq_cons_cons {r : Place} {t : Step} (child : n.child? s = some m) :
    noticed.home? n hoisted (s :: q) = some (t :: r) ↔
      s = t ∧ noticed.home? m hoisted q = some r := by
  rw [Scoping.home?_cons child]
  cases noticed.home? m hoisted q with
  | none => simp
  | some scope => simp

theorem mem_scopesOn_cons {scope : Place} (child : n.child? s = some m) :
    scope ∈ (noticed.scopesOn n (s :: q)).map Prod.fst ↔
      (∃ r ∈ (noticed.scopesOn m q).map Prod.fst, scope = s :: r) ∨
        scope = [] ∧ (opens n).isSome = true := by
  rw [Scoping.scopesOn_cons child]
  cases opened : opens n <;> simp [noticed, opened, eq_comm]

/-- The scope of a node has the names that escape from the parts in front and from what is before a
place, if it takes them. -/
theorem noticed_cons (child : n.child? s = some m) :
    Noticed n (s :: q) name ↔
      name ∈ ownNames n ∨ (∃ hoisted, Takes n hoisted ∧ EscapesUpTo n s m q hoisted name) ∨
        Noticed m q name := by
  constructor
  · rintro ⟨scope, mem, has⟩
    rcases (mem_scopesOn_cons child).1 mem with ⟨r, inner, rfl⟩ | ⟨rfl, -⟩
    · refine .inr (.inr ⟨r, inner, ?_⟩)
      rcases has with ⟨x, at_, own⟩ | ⟨p, hoisted, before, declares, home⟩
      · rw [Node.at?_cons, child] at at_
        exact .inl ⟨x, at_, own⟩
      · cases p with
        | nil => cases home
        | cons t p =>
          obtain ⟨k, child', under⟩ := declares.child
          obtain ⟨rfl, home⟩ := (home?_eq_cons_cons child').1 home
          obtain rfl := Option.some.inj (child.symm.trans child')
          refine .inr ⟨p, hoisted, ?_, under, home⟩
          exact (before.resolve_left (Step.Before.irrefl t)).2
    · rcases has with ⟨x, at_, own⟩ | ⟨p, hoisted, before, declares, home⟩
      · obtain rfl := Option.some.inj at_
        exact .inl own
      · cases p with
        | nil => cases home
        | cons t p =>
          obtain ⟨k, child', under⟩ := declares.child
          obtain ⟨taken, free⟩ := (home?_eq_nil_cons child').1 home
          refine .inr (.inl ⟨hoisted, taken, ?_⟩)
          rcases before with earlier | ⟨rfl, before⟩
          · exact .inl ⟨k, Node.mem_before.2 ⟨t, earlier, child'⟩, p, under, free⟩
          · obtain rfl := Option.some.inj (child.symm.trans child')
            exact .inr ⟨p, before, under, free⟩
  · rintro (own | ⟨hoisted, taken, escapes⟩ | ⟨r, mem, has⟩)
    · refine ⟨[], (mem_scopesOn_cons child).2 (.inr ⟨rfl, ?_⟩), .inl ⟨n, rfl, own⟩⟩
      cases n <;> simp_all [ownNames, opens]
    · refine ⟨[], (mem_scopesOn_cons child).2 (.inr ⟨rfl, ?_⟩), .inr ?_⟩
      · cases opened : opens n <;> simp_all [Takes]
      · rcases escapes with ⟨k, mem, p, under, free⟩ | ⟨p, before, under, free⟩
        · obtain ⟨t, earlier, child'⟩ := Node.mem_before.1 mem
          exact ⟨t :: p, hoisted, .inl earlier, (Scoping.declaresAt_cons child').2 under,
            (home?_eq_nil_cons child').2 ⟨taken, free⟩⟩
        · exact ⟨s :: p, hoisted, .inr ⟨rfl, before⟩, (Scoping.declaresAt_cons child).2 under,
            (home?_eq_nil_cons child).2 ⟨taken, free⟩⟩
    · refine ⟨s :: r, (mem_scopesOn_cons child).2 (.inl ⟨r, mem, rfl⟩), ?_⟩
      rcases has with ⟨x, at_, own⟩ | ⟨p, hoisted, before, declares, home⟩
      · exact .inl ⟨x, by rwa [Node.at?_cons, child], own⟩
      · exact .inr ⟨s :: p, hoisted, .inr ⟨rfl, before⟩, (Scoping.declaresAt_cons child).2 declares,
          (home?_eq_cons_cons child).2 ⟨rfl, home⟩⟩

end

/-! ## What the scopes hide -/

section

variable {flavor : Flavor} {imports : Imports} {name : String}

def Escaped (scopes scopes' : Scopes) (nodes : List Node) (name : String) : Prop :=
  scopes'.functions = scopes.functions ∧ ∀ i, scopes'.HidesAt i name ↔ scopes.HidesAt i name ∨
    ∃ hoisted, (∃ n ∈ nodes, Escapes n hoisted name) ∧
      Scopes.taker? hoisted scopes.functions = some i

theorem escaped_walkAll {nodes : List Node} (each : ∀ n ∈ nodes, ∀ scopes,
      Escaped scopes (walk flavor imports scopes n).scopes [n] name) (scopes : Scopes) :
    Escaped scopes (walkAll flavor imports scopes nodes).scopes nodes name := by
  induction nodes generalizing scopes with
  | nil => exact ⟨rfl, by simp [walkAll]⟩
  | cons n nodes ih =>
    obtain ⟨functions, hides⟩ := each n (List.mem_cons_self ..) scopes
    obtain ⟨functions', hides'⟩ :=
      ih (fun k mem => each k (List.mem_cons_of_mem _ mem)) (walk flavor imports scopes n).scopes
    refine ⟨functions'.trans functions, fun i => ?_⟩
    have behind := hides' i
    rw [functions, hides i] at behind
    simp only [walkAll, Walked.andThen, behind, List.mem_cons, List.not_mem_nil, or_false,
      exists_eq_left, or_and_right, exists_or, or_assoc]

theorem node_cases (n : Node) :
    (∃ function names parts, n = .scope function names parts) ∨
      (∃ hoisted names parts, n = .declare hoisted names parts) ∨
      (∀ imports scopes, entered imports scopes n = scopes) ∧ (∀ scopes, left scopes n = scopes) ∧
        opens n = none ∧ ownNames n = [] ∧ declares? n = none := by
  cases n <;> simp [entered, left, opens, ownNames, declares?]

theorem escapes_iff_visit {n : Node} {hoisted : Bool} :
    Escapes n hoisted name ↔ DeclaresName n hoisted name ∨
      ¬Takes n hoisted ∧ ∃ m ∈ n.visit.map Prod.snd, Escapes m hoisted name := by
  rw [escapes_iff]
  refine or_congr_right (and_congr_right fun _ => ?_)
  constructor
  · rintro ⟨s, m, child, escapes⟩
    exact ⟨m, List.mem_map.2 ⟨(s, m), Node.mem_visit.2 child, rfl⟩, escapes⟩
  · rintro ⟨m, mem, escapes⟩
    obtain ⟨⟨s, m⟩, part, rfl⟩ := List.mem_map.1 mem
    exact ⟨s, m, Node.mem_visit.1 part, escapes⟩

theorem escaped_walk (known : imports.contains name = true) (n : Node) (scopes : Scopes) :
    Escaped scopes (walk flavor imports scopes n).scopes [n] name := by
  induction h : sizeOf n using Nat.strongRecOn generalizing n scopes with
  | _ size ih =>
  subst h
  have each : ∀ k ∈ n.visit.map Prod.snd, ∀ scopes,
      Escaped scopes (walk flavor imports scopes k).scopes [k] name := by
    intro k mem scopes
    obtain ⟨⟨s, m⟩, part, rfl⟩ := List.mem_map.1 mem
    exact ih _ (Node.sizeOf_child? (Node.mem_visit.1 part)) m scopes rfl
  obtain ⟨functions, hides⟩ := escaped_walkAll each (entered imports scopes n)
  have escapes (hoisted : Bool) : Escapes n hoisted name ↔ _ := escapes_iff_visit
  simp only [Escaped, walk_eq, List.mem_singleton, exists_eq_left]
  generalize (walkAll flavor imports (entered imports scopes n) (n.visit.map Prod.snd)).scopes =
    behind at functions hides ⊢
  generalize n.visit.map Prod.snd = parts at hides escapes
  obtain ⟨function, names, ps, rfl⟩ | ⟨hoisted, names, ps, rfl⟩ | ⟨enters, leaves, opened, -, none⟩ :=
    node_cases n
  · rw [entered, Scopes.functions_cons] at functions hides
    refine ⟨?_, fun i => ?_⟩
    · rw [left, Scopes.functions, List.map_tail]
      exact congrArg List.tail functions
    · have taken (hoisted : Bool) : Escapes (.scope function names ps) hoisted name ↔
          Scoping.takes hoisted function = false ∧ ∃ m ∈ parts, Escapes m hoisted name := by
        simp [escapes, not_declaresName_scope, takes_scope]
      rw [left, Scopes.hidesAt_tail, hides (i + 1), Scopes.hidesAt_cons_succ]
      simp only [Scopes.taker?_cons_succ, taken, and_left_comm, and_assoc]
  · rw [entered, Scopes.functions_declare] at functions hides
    refine ⟨functions, fun i => ?_⟩
    have declared (h : Bool) : Escapes (.declare hoisted names ps) h name ↔
        hoisted = h ∧ name ∈ names ∨ ∃ m ∈ parts, Escapes m h name := by
      simp [escapes, declaresName_declare, not_takes_declare]
    simp only [left, hides i, Scopes.hidesAt_declare, declared, List.mem_filter, known, and_true,
      or_and_right, exists_or, and_assoc, exists_eq_left', or_assoc]
  · rw [enters] at functions hides
    refine ⟨by rw [leaves, functions], fun i => ?_⟩
    have parted (hoisted : Bool) : Escapes n hoisted name ↔
        ∃ m ∈ parts, Escapes m hoisted name := by
      simp [escapes, DeclaresName, none, Takes, opened]
    rw [leaves, hides i]
    simp only [parted]

theorem hides_entered (known : imports.contains name = true) (n : Node) (scopes : Scopes)
    (escapes : Bool → Prop) :
    ((entered imports scopes n).hides name = true ∨ ∃ hoisted, escapes hoisted ∧
        (Scopes.taker? hoisted (entered imports scopes n).functions).isSome = true) ↔
      scopes.hides name = true ∨
      (∃ hoisted, (DeclaresName n hoisted name ∨ ¬Takes n hoisted ∧ escapes hoisted) ∧
        (Scopes.taker? hoisted scopes.functions).isSome = true) ∨
      name ∈ ownNames n ∨ ∃ hoisted, Takes n hoisted ∧ escapes hoisted := by
  obtain ⟨function, names, ps, rfl⟩ | ⟨hoisted, names, ps, rfl⟩ | ⟨enters, -, opened, own, none⟩ :=
    node_cases n
  · simp only [entered, Scopes.hides_cons, List.mem_filter, known, and_true, Scopes.functions_cons,
      Scopes.isSome_taker?_cons, ownNames, not_declaresName_scope, takes_scope, false_or,
      Bool.exists_bool]
    tauto
  · simp only [entered, Scopes.functions_declare, Scopes.hides_declare, List.mem_filter, known,
      and_true, ownNames, declaresName_declare, not_takes_declare, not_false_eq_true, true_and,
      false_and, exists_false, or_false, List.not_mem_nil, or_and_right, exists_or, and_assoc,
      exists_eq_left', or_assoc]
  · simp [enters, DeclaresName, none, Takes, opened, own]

/-- The scopes with which the walk comes to a place hide an imported name if they did before the node,
if it came into them from what is in front of the place, or if it is noticed at the place. -/
theorem hides_scopesAt (known : imports.contains name = true) {n x : Node} {q : Place}
    (at_ : n.at? q = some x) (scopes : Scopes) :
    (scopesAt flavor imports scopes n q).hides name = true ↔
      scopes.hides name = true ∨
      (∃ hoisted, EscapesBefore n q hoisted name ∧
        (Scopes.taker? hoisted scopes.functions).isSome = true) ∨
      Noticed n q name := by
  induction q generalizing n scopes with
  | nil => simp [scopesAt, not_escapesBefore_nil, not_noticed_nil]
  | cons s q ih =>
    obtain ⟨m, child, under⟩ := Node.child?_of_at? at_
    have each : ∀ k ∈ n.before s, ∀ scopes,
        Escaped scopes (walk flavor imports scopes k).scopes [k] name :=
      fun k _ => escaped_walk known k
    obtain ⟨functions, hides⟩ := escaped_walkAll each (entered imports scopes n)
    have front : (walkAll flavor imports (entered imports scopes n) (n.before s)).scopes.hides name =
        true ↔ (entered imports scopes n).hides name = true ∨
          ∃ hoisted, (∃ k ∈ n.before s, Escapes k hoisted name) ∧
            (Scopes.taker? hoisted (entered imports scopes n).functions).isSome = true := by
      simp only [Scopes.hides_iff, hides, exists_or, Option.isSome_iff_exists]
      rw [exists_comm]
      simp only [exists_and_left]
    rw [scopesAt, child]
    calc
      _ ↔ _ := ih under _
      _ ↔ ((entered imports scopes n).hides name = true ∨
            ∃ hoisted, EscapesUpTo n s m q hoisted name ∧
              (Scopes.taker? hoisted (entered imports scopes n).functions).isSome = true) ∨
          Noticed m q name := by
        simp only [front, functions, EscapesUpTo, or_and_right, exists_or, or_assoc]
      _ ↔ _ := by
        rw [hides_entered known]
        simp only [noticed_cons child, escapesBefore_cons child, or_assoc]

/-! ## The sites of the walk -/

theorem mem_sites_walkAll {nodes : List Node} {scopes : Scopes} {site : Site} :
    site ∈ (walkAll flavor imports scopes nodes).sites ↔ ∃ front m back, nodes = front ++ m :: back ∧
      site ∈ (walk flavor imports (walkAll flavor imports scopes front).scopes m).sites := by
  induction nodes generalizing scopes with
  | nil => simp [walkAll]
  | cons n nodes ih =>
    rw [walkAll, Walked.andThen, List.mem_append, ih]
    constructor
    · rintro (first | ⟨front, m, back, rfl, further⟩)
      · exact ⟨[], n, nodes, rfl, first⟩
      · exact ⟨n :: front, m, back, rfl, further⟩
    · rintro ⟨front, m, back, whole, mem⟩
      cases front with
      | nil =>
        obtain ⟨rfl, rfl⟩ := List.cons.inj whole
        exact .inl mem
      | cons k front =>
        obtain ⟨rfl, rfl⟩ := List.cons.inj whole
        exact .inr ⟨front, m, back, rfl, mem⟩

theorem mem_ownSites {n : Node} {scopes : Scopes} {site : Site} :
    site ∈ ownSites flavor imports scopes n ↔ ∃ callee arguments types,
      n = .call callee arguments types ∧ isTarget flavor imports scopes callee = true ∧
        siteOf? arguments = some site := by
  cases n with
  | call callee arguments types =>
    cases target : isTarget flavor imports scopes callee <;> simp [ownSites, target]
  | _ => simp [ownSites]

/-- The sites of a walk are those of the calls of the function, as the scopes are where the walk comes
to the call. -/
theorem mem_sites_walk {n : Node} {scopes : Scopes} {site : Site} :
    site ∈ (walk flavor imports scopes n).sites ↔ ∃ q callee arguments types,
      n.at? q = some (.call callee arguments types) ∧
        isTarget flavor imports (scopesAt flavor imports scopes n q) callee = true ∧
        siteOf? arguments = some site := by
  induction h : sizeOf n using Nat.strongRecOn generalizing n scopes with
  | _ size ih =>
  subst h
  rw [walk_eq, List.mem_append, mem_ownSites, mem_sites_walkAll]
  constructor
  · rintro (⟨callee, arguments, types, rfl, target, found⟩ | ⟨front, m, back, whole, mem⟩)
    · exact ⟨[], callee, arguments, types, rfl, target, found⟩
    · obtain ⟨front, back, visited, rfl, same⟩ := List.map_eq_append_iff.1 whole
      obtain ⟨⟨s, m⟩, back, rfl, rfl, -⟩ := List.map_eq_cons_iff.1 same
      have child : n.child? s = some m := Node.mem_visit.1 (by simp [visited])
      obtain ⟨q, callee, arguments, types, at_, target, found⟩ :=
        (ih _ (Node.sizeOf_child? child) rfl).1 mem
      refine ⟨s :: q, callee, arguments, types, by rwa [Node.at?_cons, child], ?_, found⟩
      rwa [scopesAt, child, Node.before_eq visited]
  · rintro ⟨q, callee, arguments, types, at_, target, found⟩
    cases q with
    | nil => exact .inl ⟨callee, arguments, types, Option.some.inj at_, target, found⟩
    | cons s q =>
      obtain ⟨m, child, under⟩ := Node.child?_of_at? at_
      obtain ⟨front, back, visited⟩ := List.append_of_mem (Node.mem_visit.2 child)
      rw [scopesAt, child, Node.before_eq visited] at target
      refine .inr ⟨front.map Prod.snd, m, back.map Prod.snd, by simp [visited], ?_⟩
      exact (ih _ (Node.sizeOf_child? child) rfl).2
        ⟨q, callee, arguments, types, under, target, found⟩

end

end BundlePrep.Message
