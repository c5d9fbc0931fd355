import BundlePrep.PrivateName.Convert
import BundlePrep.Proofs.PrivateName.Visiting
import BundlePrep.Proofs.PrivateName.Names
import Mathlib.Data.List.Perm.Subperm

/-!
# Private names are bound by the innermost class that declares them

The bodies around a place are listed innermost first, so that the first one with a name is the
class that binds it. Pairs of a class and a name have different numbers, and different numbers have
different short names. The types of a class are not walked: names in them stay as they are.
-/

set_option autoImplicit false

namespace BundlePrep.PrivateName

open BundlePrep.Script

/-! ## The bodies around a place -/

theorem mem_inside {here : Place} {n : Node} {s : Step} {body : Body} :
    body ∈ inside [] here n s ↔ ∃ decorators heritage members types i,
      n = .classBody decorators heritage members types ∧ s = .member i ∧
        body = ⟨here, declaredNames members⟩ := by
  unfold inside
  split
  next decorators heritage members types i =>
    rw [List.mem_singleton]
    constructor
    · rintro rfl
      exact ⟨decorators, heritage, members, types, i, rfl, rfl, rfl⟩
    · rintro ⟨_, _, _, _, _, same, -, rfl⟩
      cases same
      rfl
  next other =>
    constructor
    · intro mem
      cases mem
    · rintro ⟨_, _, _, _, _, whole, member, -⟩
      exact (other _ _ _ _ _ whole member).elim

theorem mem_bodiesOn {here : Place} {n x : Node} {q : Place} (h : n.at? q = some x) {body : Body} :
    body ∈ bodiesOn here n q ↔ ∃ p decorators heritage members types i rest,
      n.at? p = some (.classBody decorators heritage members types) ∧ q = p ++ .member i :: rest ∧
        body = ⟨here ++ p, declaredNames members⟩ := by
  induction q generalizing here n with
  | nil =>
    constructor
    · intro mem
      cases mem
    · rintro ⟨p, _, _, _, _, _, _, -, whole, -⟩
      simp at whole
  | cons s q ih =>
    obtain ⟨m, child, under⟩ := Node.child?_of_at? h
    rw [← List.append_nil (bodiesOn here n (s :: q)), bodiesOn_cons child, List.mem_append, ih under,
      mem_inside]
    constructor
    · rintro (⟨p, decorators, heritage, members, types, i, rest, at_, rfl, rfl⟩ |
        ⟨decorators, heritage, members, types, i, rfl, rfl, rfl⟩)
      · refine ⟨s :: p, decorators, heritage, members, types, i, rest, ?_, rfl, ?_⟩
        · rwa [Node.at?_cons, child]
        · rw [List.append_cons here s p]
      · exact ⟨[], decorators, heritage, members, types, i, q, rfl, rfl, by rw [List.append_nil]⟩
    · rintro ⟨p, decorators, heritage, members, types, i, rest, at_, whole, rfl⟩
      cases p with
      | nil =>
        obtain ⟨rfl, rfl⟩ := List.cons.inj whole
        exact .inr ⟨decorators, heritage, members, types, i, Option.some.inj at_, rfl,
          by rw [List.append_nil]⟩
      | cons t p =>
        obtain ⟨rfl, rfl⟩ := List.cons.inj whole
        rw [Node.at?_cons, child] at at_
        exact .inl ⟨p, decorators, heritage, members, types, i, rest, at_, rfl,
          by rw [List.append_cons here s p]⟩

theorem bodiesOn_sorted (here : Place) (n : Node) (q : Place) :
    (bodiesOn here n q).Pairwise fun a b => b.place.length < a.place.length := by
  suffices sorted : (∀ b ∈ bodiesOn here n q, here.length ≤ b.place.length) ∧
      (bodiesOn here n q).Pairwise fun a b => b.place.length < a.place.length from sorted.2
  induction q generalizing here n with
  | nil => simp [bodiesOn]
  | cons s q ih =>
    cases child : n.child? s with
    | none =>
      rw [bodiesOn, child]
      simp
    | some m =>
      obtain ⟨further, sorted⟩ := ih (here ++ [s]) m
      rw [List.length_append, List.length_singleton] at further
      have last : ∀ b ∈ inside [] here n s, b.place.length = here.length := by
        intro b mem
        obtain ⟨_, _, _, _, _, -, -, rfl⟩ := mem_inside.1 mem
        rfl
      have one : (inside [] here n s).Pairwise fun a b => b.place.length < a.place.length := by
        unfold inside
        split
        · exact List.pairwise_singleton _ _
        · exact List.Pairwise.nil
      rw [← List.append_nil (bodiesOn here n (s :: q)), bodiesOn_cons child]
      constructor
      · intro b mem
        rcases List.mem_append.1 mem with mem | mem
        · exact Nat.le_of_succ_le (further b mem)
        · exact Nat.le_of_eq (last b mem).symm
      · rw [List.pairwise_append]
        refine ⟨sorted, one, ?_⟩
        intro a ha b hb
        rw [last b hb]
        exact further a ha

theorem binder_eq_some_iff {root x : Node} {place : Place} (h : root.at? place = some x)
    (name : String) (c : Place) :
    binder? (bodiesOn [] root place) name = some c ↔ BoundTo root place name c := by
  have around (body : Body) : body ∈ bodiesOn [] root place →
      Encloses root body.place place ∧
        (body.names.contains name = true → DeclaresAt root body.place name) := by
    intro mem
    obtain ⟨p, decorators, heritage, members, types, i, rest, at_, whole, rfl⟩ :=
      (mem_bodiesOn h).1 mem
    refine ⟨⟨decorators, heritage, members, types, i, rest, at_, whole⟩, ?_⟩
    intro declared
    refine ⟨decorators, heritage, members, types, at_, ?_⟩
    rw [← mem_declaredNames]
    simpa using declared
  have listed (p : Place) : Encloses root p place → DeclaresAt root p name →
      ∃ body ∈ bodiesOn [] root place, body.place = p ∧ body.names.contains name = true := by
    rintro ⟨decorators, heritage, members, types, i, rest, at_, whole⟩ ⟨_, _, _, _, same, declared⟩
    cases at_.symm.trans same
    refine ⟨⟨p, declaredNames members⟩, (mem_bodiesOn h).2
      ⟨p, decorators, heritage, members, types, i, rest, at_, whole, rfl⟩, rfl, ?_⟩
    rw [List.contains_iff_mem, mem_declaredNames]
    exact declared
  have sound (c : Place) (found : binder? (bodiesOn [] root place) name = some c) :
      BoundTo root place name c := by
    obtain ⟨body, first, rfl⟩ := Option.map_eq_some_iff.1 found
    obtain ⟨declared, before, after, whole, none⟩ := List.find?_eq_some_iff_append.1 first
    have mem : body ∈ bodiesOn [] root place := by simp [whole]
    refine ⟨(around body mem).1, (around body mem).2 declared, ?_⟩
    intro other encloses declares
    obtain ⟨b, hb, rfl, named⟩ := listed other encloses declares
    have sorted := bodiesOn_sorted [] root place
    rw [whole] at hb sorted
    rcases List.mem_append.1 hb with hb | hb
    · have := none b hb
      rw [named] at this
      cases this
    · rcases List.mem_cons.1 hb with rfl | hb
      · exact Nat.le_refl _
      · have inner := (List.pairwise_cons.1 (List.pairwise_append.1 sorted).2.1).1 b hb
        exact Nat.le_of_lt inner
  constructor
  · exact sound c
  · intro bound
    obtain ⟨b, hb, -, named⟩ := listed c bound.1 bound.2.1
    cases found : binder? (bodiesOn [] root place) name with
    | none =>
      have absent := List.find?_eq_none.1 (Option.map_eq_none_iff.1 found) b hb
      exact absurd named absent
    | some c' => rw [boundTo_unique (sound c' found) bound]

/-! ## Numbers -/

theorem map_idxOf_of_nodup {α : Type} [BEq α] [LawfulBEq α] {l : List α} (h : l.Nodup) :
    l.map (fun x => l.idxOf x) = List.range' 0 l.length := by
  refine List.ext_getElem (by simp) ?_
  intro i hi _
  rw [List.getElem_map, List.getElem_range', h.idxOf_getElem]
  simp

def numberIn (program : Program) (pair : Place × String) : Nat :=
  (survey [] [] program.root).declared.idxOf pair

def foundIn (program : Program) : List (Place × Use) :=
  (survey [] [] program.root).occurrences.map fun o => (o.place, o.use (numberIn program))

theorem resolve_eq_found (program : Program) :
    resolve program = (survey [] [] program.root).found (numberIn program) 0 := by
  have numbered : (survey [] [] program.root).NumberedFrom (numberIn program) 0 :=
    map_idxOf_of_nodup (ordered_program program).nodup.2
  have walked := walk_eq_found (numberIn program) [] [] 0 program.root numbered
  rw [Program.root, List.map_nil, walk] at walked
  rw [resolve, walked]
  rfl

theorem uses_resolve (program : Program) :
    (foundIn program).map Prod.snd = (resolve program).uses := by
  rw [resolve_eq_found, foundIn, List.map_map]
  rfl

theorem mem_foundIn {program : Program} {place : Place} {use : Use} :
    (place, use) ∈ foundIn program ↔
      NamedAt program.root place use.name use.span ∧ ¬InClassTypes place ∧
        (use.quoted = true ↔ LeftOfIn program.root place) ∧
        use.number = (binder? (bodiesOn [] program.root place) use.name).map
          fun c => numberIn program (c, use.name) := by
  have listed := lists_use_iff [] [] program.root
  simp only [List.append_nil, List.nil_append, Survey.Lists] at listed
  constructor
  · intro mem
    obtain ⟨o, ho, same⟩ := List.mem_map.1 mem
    obtain ⟨rfl, rfl⟩ := Prod.mk.inj same
    obtain ⟨q, place, named, outside, quoted, bound⟩ := (listed o).1 ho
    subst place
    exact ⟨named, outside, quoted, by rw [Occurrence.use, bound]⟩
  · rintro ⟨named, outside, quoted, number⟩
    refine List.mem_map.2 ⟨⟨place, use.name, use.span, use.quoted,
      binder? (bodiesOn [] program.root place) use.name⟩, ?_, ?_⟩
    · exact (listed _).2 ⟨place, rfl, named, outside, quoted, rfl⟩
    · rw [Occurrence.use, ← number]

theorem number_eq_some {program : Program} {place : Place} {use : Use} {number : Nat}
    (h : (place, use) ∈ foundIn program) (hn : use.number = some number) :
    ∃ c, BoundTo program.root place use.name c ∧ ¬InClassTypes c ∧
      numberIn program (c, use.name) = number := by
  obtain ⟨named, outside, -, bound⟩ := mem_foundIn.1 h
  rw [hn] at bound
  obtain ⟨c, binder, rfl⟩ := Option.map_eq_some_iff.1 bound.symm
  have binds := (binder_eq_some_iff named use.name c).1 binder
  exact ⟨c, binds, fun types => outside (binds.1.inClassTypes types), rfl⟩

theorem numberIn_inj {program : Program} {c c' : Place} {name name' : String}
    (hc : DeclaresAt program.root c name) (outside : ¬InClassTypes c)
    (h : numberIn program (c, name) = numberIn program (c', name')) : (c, name) = (c', name') := by
  have mem : (c, name) ∈ (survey [] [] program.root).declared :=
    (lists_pair_iff [] [] program.root c name).2 ⟨c, rfl, hc, outside⟩
  exact (List.idxOf_inj mem).1 h

/-! ## The binding of a program -/

/-- Of the private names of a tree, the given ones are found, each at its place. All that a class
binds at places of one kind are among them, and two of them get the same name exactly if the same
class binds the same name. -/
structure Binds (root : Node) (kind : Place → Prop) (found : List (Place × Use)) : Prop where
  once : (found.map Prod.fst).Nodup
  stands : ∀ place use, (place, use) ∈ found →
    NamedAt root place use.name use.span ∧ (use.quoted = true ↔ LeftOfIn root place)
  bound : ∀ place name span c, NamedAt root place name span → BoundTo root place name c →
    kind place → ∃ use number, (place, use) ∈ found ∧ use.number = some number ∧
      ∀ bytes, (use.edit? bytes).map (·.content) = some (use.replacement number)
  unbound : ∀ place use, (place, use) ∈ found → (∀ c, ¬BoundTo root place use.name c) →
    ∀ bytes, use.edit? bytes = none
  same : ∀ place use number, (place, use) ∈ found → use.number = some number →
    ∀ place' use' number', (place', use') ∈ found → use'.number = some number' →
      (shortName number = shortName number' ↔
        (∃ c, BoundTo root place use.name c ∧ BoundTo root place' use'.name c) ∧
          use.name = use'.name)

theorem foundIn_binds (program : Program) :
    Binds program.root (fun place => ¬InClassTypes place) (foundIn program) where
  once := by
    rw [foundIn, List.map_map]
    exact (ordered_program program).nodup.1
  stands := by
    intro place use mem
    obtain ⟨named, -, quoted, -⟩ := mem_foundIn.1 mem
    exact ⟨named, quoted⟩
  bound := by
    classical
    intro place name span c named bound outside
    have binder := (binder_eq_some_iff named name c).2 bound
    refine ⟨⟨name, span, decide (LeftOfIn program.root place), numberIn program (c, name)⟩,
      numberIn program (c, name), mem_foundIn.2 ⟨named, outside, by simp, ?_⟩, rfl, fun _ => rfl⟩
    rw [binder]
    rfl
  unbound := by
    intro place use mem none bytes
    obtain ⟨named, -, -, number⟩ := mem_foundIn.1 mem
    cases binder : binder? (bodiesOn [] program.root place) use.name with
    | none =>
      rw [binder] at number
      rw [Use.edit?, number]
      rfl
    | some c => exact absurd ((binder_eq_some_iff named use.name c).1 binder) (none c)
  same := by
    intro place use number mem hn place' use' number' mem' hn'
    obtain ⟨c, bound, outside, rfl⟩ := number_eq_some mem hn
    obtain ⟨c', bound', -, rfl⟩ := number_eq_some mem' hn'
    constructor
    · intro same
      obtain ⟨rfl, name⟩ := Prod.mk.inj (numberIn_inj bound.2.1 outside (shortName_injective same))
      exact ⟨⟨c, bound, bound'⟩, name⟩
    · rintro ⟨⟨d, both, both'⟩, name⟩
      rw [boundTo_unique bound both, boundTo_unique bound' both', name]

def numbered (found : List (Place × Use)) : List Place :=
  (found.filter fun x => x.2.number.isSome).map Prod.fst

theorem mem_numbered {found : List (Place × Use)} {place : Place} :
    place ∈ numbered found ↔ ∃ use number, (place, use) ∈ found ∧ use.number = some number := by
  simp [numbered, Option.isSome_iff_exists]

theorem length_numbered (found : List (Place × Use)) :
    (numbered found).length = (found.map Prod.snd).countP fun use => use.number.isSome := by
  rw [numbered, List.length_map, ← List.countP_eq_length_filter, List.countP_map]
  rfl

/-- A name that is bound among the types of a class is found under no reading of the uses: all
others that are bound need as many numbers as there are. -/
theorem not_binds_of_bound {program : Program} {place : Place} {name : String} {span : Span}
    {c : Place} (named : NamedAt program.root place name span)
    (bound : BoundTo program.root place name c) (types : InClassTypes place)
    {found : List (Place × Use)} (same : found.map Prod.snd = (resolve program).uses) :
    ¬Binds program.root (fun _ => True) found := by
  intro binds
  have unlisted : place ∉ numbered (foundIn program) := by
    intro mem
    obtain ⟨use, number, mem, -⟩ := mem_numbered.1 mem
    exact (mem_foundIn.1 mem).2.1 types
  have distinct : (place :: numbered (foundIn program)).Nodup :=
    List.nodup_cons.2 ⟨unlisted,
      List.Nodup.sublist (List.Sublist.map _ List.filter_sublist) (foundIn_binds program).once⟩
  have among : place :: numbered (foundIn program) ⊆ numbered found := by
    intro p mem
    rcases List.mem_cons.1 mem with rfl | mem
    · obtain ⟨use, number, mem, hn, -⟩ := binds.bound p name span c named bound trivial
      exact mem_numbered.2 ⟨use, number, mem, hn⟩
    · obtain ⟨use, number, mem, hn⟩ := mem_numbered.1 mem
      obtain ⟨d, bound, -⟩ := number_eq_some mem hn
      obtain ⟨use, number, mem, hn, -⟩ :=
        binds.bound p _ _ d (mem_foundIn.1 mem).1 bound trivial
      exact mem_numbered.2 ⟨use, number, mem, hn⟩
  have more := (List.subperm_of_subset distinct among).length_le
  rw [List.length_cons, length_numbered, length_numbered, same, uses_resolve] at more
  omega

/-- Every private name outside the types of classes is bound by the innermost class body around it
that declares it, and gets the name of that binding. Names in the types of classes are not found,
so that all of a program is bound exactly if no class binds a name that stands there. -/
theorem resolve_binds (program : Program) :
    (∃ found, found.map Prod.snd = (resolve program).uses ∧
      Binds program.root (fun place => ¬InClassTypes place) found ∧
      ∀ place use, (place, use) ∈ found → ¬InClassTypes place) ∧
    ((∃ found, found.map Prod.snd = (resolve program).uses ∧
      Binds program.root (fun _ => True) found) ↔
        ∀ place name span c, NamedAt program.root place name span →
          BoundTo program.root place name c → ¬InClassTypes place) := by
  have binds := foundIn_binds program
  refine ⟨⟨foundIn program, uses_resolve program, binds, fun _ _ mem => (mem_foundIn.1 mem).2.1⟩,
    ?_, ?_⟩
  · rintro ⟨found, same, binds⟩ place name span c named bound types
    exact not_binds_of_bound named bound types same binds
  · intro outside
    refine ⟨foundIn program, uses_resolve program, { binds with bound := ?_ }⟩
    intro place name span c named bound _
    exact binds.bound place name span c named bound (outside place name span c named bound)

def typeParameterProgram : Program :=
  ⟨false, [.declare false ["A"] [.classBody [] []
    [.form .member [.privateName "x" ⟨10, 12⟩],
      .form .member [.form .key [], .scope true [] [.scope false [] [.declare false ["B"]
        [.classBody [] [] [] [.form .type [.form .type [.form .type
          [.form .computedKey [.form .privateMember
            [.form .keyword [], .privateName "x" ⟨46, 48⟩]], .form .type []]]]]]]]]]
    []]]⟩

set_option maxRecDepth 20000 in
/-- A private name in a type parameter is bound by a class and not found. -/
theorem typeParameter_unbound :
    Program.parse? ⟨true, false⟩
        "class A { #x; m() { class B<T extends { [this.#x]: string }> { } } }".toList =
      some typeParameterProgram ∧
    ¬∃ found, found.map Prod.snd = (resolve typeParameterProgram).uses ∧
      Binds typeParameterProgram.root (fun _ => True) found := by
  let place : Place := [.part 0, .part 0, .member 1, .part 1, .part 0, .part 0, .part 0, .type 0,
    .part 0, .part 0, .part 0, .part 0, .part 1]
  have named : NamedAt typeParameterProgram.root place "x" ⟨46, 48⟩ := rfl
  have bound : BoundTo typeParameterProgram.root place "x" [.part 0, .part 0] :=
    (binder_eq_some_iff named "x" _).1 (by decide +kernel)
  refine ⟨rfl, ?_⟩
  rintro ⟨found, same, binds⟩
  exact not_binds_of_bound named bound ⟨0, by decide⟩ same binds

end BundlePrep.PrivateName
