import BundlePrep.Proofs.PrivateName.Binding
import BundlePrep.Proofs.Text.ByteOrder
import BundlePrep.Proofs.Text.Portion

/-!
# Edits of a conversion

Where every private name of a script stands on a token of its own, a conversion edits each of them once
that a class binds, and nothing else. The new names are the first short names: one for each pair of a
class and a name, in the order in which the classes are visited. Names in the types of a class are left
out of this.
-/

set_option autoImplicit false

namespace BundlePrep.PrivateName

open BundlePrep.Script BundlePrep.Text

/-! ## Tokens of private names -/

/-- A range is that of a private name in a text: a number sign with a word behind it. -/
def IsToken (text : List Char) (span : Span) : Prop :=
  ∃ before word behind, text = before ++ ('#' :: word ++ behind) ∧ '#' ∉ word ∧
    span = ⟨byteLength before, byteLength before + byteLength ('#' :: word)⟩

/-- The private names of a tree have the ranges of distinct tokens of a text. -/
structure Tokened (text : List Char) (root : Node) : Prop where
  token : ∀ place name span, NamedAt root place name span → IsToken text span
  apart : ∀ place name span place' name' span', NamedAt root place name span →
    NamedAt root place' name' span' → span.start = span'.start → place = place'

theorem range_of_token {code : String} {use : Use} (token : IsToken code.toList use.span) :
    use.range code.toUTF8 = (use.span.start, use.span.stop) := by
  obtain ⟨before, word, behind, whole, -, span⟩ := token
  have mark : code.toUTF8[use.span.start]? = some 35 := by
    rw [getElem?_toUTF8, bytes_eq, whole, span, List.flatMap_append, List.cons_append,
      List.flatMap_cons, List.getElem?_append_right (by rw [length_encoded]), length_encoded,
      Nat.sub_self]
    rfl
  rw [Use.range, mark]
  simp

theorem edit?_of_token {code : String} {use : Use} (token : IsToken code.toList use.span) :
    use.edit? code.toUTF8 = use.number.map fun number =>
      ⟨use.span.start, use.span.stop, newName use.quoted number⟩ := by
  rw [Use.edit?, range_of_token token]
  rfl

theorem IsToken.clear {text : List Char} {a b : Span} (ha : IsToken text a) (hb : IsToken text b)
    (less : a.start < b.start) : a.stop ≤ b.start := by
  obtain ⟨before, word, behind, whole, plain, rfl⟩ := ha
  obtain ⟨before', word', behind', whole', -, rfl⟩ := hb
  simp only at less ⊢
  obtain ⟨gap, rfl, same⟩ := exists_between (whole.symm.trans whole') (Nat.le_of_lt less)
  rw [byteLength_append] at less ⊢
  by_contra inside
  -- A token that begins inside of another one puts a number sign into its word.
  obtain ⟨rest, token, -⟩ := exists_between (a := gap) (b := '#' :: word) same.symm (by omega)
  obtain ⟨c, gap, rfl⟩ : ∃ c tail, gap = c :: tail := by
    cases gap with
    | nil => simp [byteLength] at less
    | cons c tail => exact ⟨c, tail, rfl⟩
  rw [token, List.append_assoc, List.append_cancel_left_eq] at same
  cases rest with
  | nil =>
    rw [token, List.append_nil] at inside
    omega
  | cons d rest =>
    obtain ⟨rfl, -⟩ := List.cons.inj same
    have mem := congrArg List.tail token
    exact plain (by rw [show word = gap ++ '#' :: rest from mem]; simp)

/-! ## What a conversion does -/

/-- A private name stands at a place of a kind, and a class binds it. -/
def Resolves (root : Node) (kind : Place → Prop) (place : Place) : Prop :=
  kind place ∧ ∃ name span c, NamedAt root place name span ∧ BoundTo root place name c

/-- The classes at places of a kind with the names that they declare, in the order of their numbers. -/
structure Numbered (root : Node) (kind : Place → Prop) (declared : List (Place × String)) : Prop where
  listed : ∀ c name, (c, name) ∈ declared ↔ DeclaresAt root c name ∧ kind c
  ordered : declared.Pairwise (NumberedBefore root)

/-- An edit gives the private name at a place the name of its binding, quoted to the left of `in`. -/
def Renames (root : Node) (declared : List (Place × String)) (place : Place) (edit : Edit) : Prop :=
  ∃ name span c quoted, NamedAt root place name span ∧ BoundTo root place name c ∧
    edit.start = span.start ∧ edit.stop = span.stop ∧ (quoted = true ↔ LeftOfIn root place) ∧
    edit.content = newName quoted (declared.idxOf (c, name))

/-- A conversion renames the private names of a kind that classes bind, each once and none else, to
the first short names, and counts what it does. -/
structure Renamed (code : String) (root : Node) (kind : Place → Prop)
    (declared : List (Place × String)) (edits : List Edit) (conversion : Conversion) : Prop where
  numbered : Numbered root kind declared
  disjoint : edits.Pairwise fun a b => a.stop ≤ b.start ∨ b.stop ≤ a.start
  once : ∃ places : List Place, places.Nodup ∧ (∀ place, place ∈ places ↔ Resolves root kind place) ∧
    List.Forall₂ (Renames root declared) places edits
  handedOut : ∀ number, number < declared.length ↔
    ∃ edit ∈ edits, ∃ quoted, edit.content = newName quoted number
  applied : Edit.applyAll? code edits = some conversion.code
  names : conversion.names = declared.length
  classes : conversion.classes = (declared.map Prod.fst).toFinset.card
  counted : conversion.edits = edits.length
  unchanged : conversion = .unchanged code ↔ edits = []

theorem toList_newName (quoted : Bool) (number : Nat) :
    (newName quoted number).toList =
      if quoted then '\x27' :: ((shortName number).toList ++ ['\x27'])
      else (shortName number).toList := by
  cases quoted <;> simp [newName]

theorem newName_unquoted (number : Nat) : newName false number = shortName number := rfl

theorem head_newName (quoted : Bool) (number : Nat) :
    (newName quoted number).toList.head? = some (if quoted then '\x27' else '$') := by
  rw [toList_newName]
  cases quoted with
  | true => rfl
  | false => simp [shortName]

theorem newName_injective {quoted quoted' : Bool} {number number' : Nat}
    (h : newName quoted number = newName quoted' number') : number = number' := by
  have chars := congrArg String.toList h
  rw [toList_newName, toList_newName] at chars
  cases quoted <;> cases quoted' <;> simp [shortName] at chars
  · exact shortLetters_injective chars
  · exact shortLetters_injective chars

/-! ## The edits of a program -/

theorem forall₂_numbered {found : List (Place × Use)} {bytes : ByteArray} {R : Place → Edit → Prop}
    (h : ∀ place use edit, (place, use) ∈ found → use.edit? bytes = some edit → R place edit) :
    List.Forall₂ R (PrivateName.numbered found)
      ((found.map Prod.snd).filterMap fun use => use.edit? bytes) := by
  induction found with
  | nil => exact .nil
  | cons x found ih =>
    obtain ⟨place, use⟩ := x
    have rest := ih fun place use edit mem => h place use edit (List.mem_cons_of_mem _ mem)
    cases number : use.number with
    | none =>
      have none : use.edit? bytes = none := by rw [Use.edit?, number]; rfl
      simpa [PrivateName.numbered, number, none] using rest
    | some n =>
      obtain ⟨edit, some⟩ : ∃ edit, use.edit? bytes = some edit := by
        rw [Use.edit?, number]
        exact ⟨_, rfl⟩
      simpa [PrivateName.numbered, number, some] using
        And.intro (h place use edit (List.mem_cons_self ..) some) rest

theorem exists_of_mem_right {α β : Type} {R : α → β → Prop} {as : List α} {bs : List β}
    (related : List.Forall₂ R as bs) {b : β} (mem : b ∈ bs) : ∃ a ∈ as, R a b := by
  induction related with
  | nil => cases mem
  | @cons a _ _ _ first _ ih =>
    rcases List.mem_cons.1 mem with rfl | mem
    · exact ⟨a, List.mem_cons_self .., first⟩
    · obtain ⟨a', inside, other⟩ := ih mem
      exact ⟨a', List.mem_cons_of_mem _ inside, other⟩

theorem exists_of_mem_left {α β : Type} {R : α → β → Prop} {as : List α} {bs : List β}
    (related : List.Forall₂ R as bs) {a : α} (mem : a ∈ as) : ∃ b ∈ bs, R a b :=
  exists_of_mem_right (R := flip R) related.flip mem

theorem pairwise_of_forall₂ {α β : Type} {R : α → β → Prop} {S : α → α → Prop} {T : β → β → Prop}
    {as : List α} {bs : List β} (related : List.Forall₂ R as bs) (pairwise : as.Pairwise S)
    (h : ∀ a a' b b', R a b → R a' b' → S a a' → T b b') : bs.Pairwise T := by
  induction related with
  | nil => exact .nil
  | @cons a b as bs first rest ih =>
    obtain ⟨further, pairwise⟩ := List.pairwise_cons.1 pairwise
    refine .cons (fun b' mem => ?_) (ih pairwise)
    obtain ⟨a', ha, other⟩ := exists_of_mem_right rest mem
    exact h a a' b b' first other (further a' ha)

section

variable (program : Program) {code : String}

def declaredIn : List (Place × String) := (survey [] [] program.root).declared

theorem numbered_declaredIn :
    Numbered program.root (fun place => ¬InClassTypes place) (declaredIn program) where
  listed c name := by
    have listed := lists_pair_iff [] [] program.root c name
    simpa [Survey.Lists, declaredIn] using listed
  ordered := (ordered_program program).declared

theorem nodup_declaredIn : (declaredIn program).Nodup := (ordered_program program).nodup.2

variable {program}

theorem mem_editsOf {edit : Edit} : edit ∈ editsOf code (resolve program) ↔
    ∃ place use, (place, use) ∈ foundIn program ∧ use.edit? code.toUTF8 = some edit := by
  rw [editsOf, ← uses_resolve, List.mem_filterMap]
  constructor
  · rintro ⟨use, mem, own⟩
    obtain ⟨⟨place, _⟩, inside, rfl⟩ := List.mem_map.1 mem
    exact ⟨place, _, inside, own⟩
  · rintro ⟨place, use, mem, own⟩
    exact ⟨use, List.mem_map_of_mem mem, own⟩

theorem mem_numbered_iff {place : Place} : place ∈ PrivateName.numbered (foundIn program) ↔
    Resolves program.root (fun place => ¬InClassTypes place) place := by
  rw [mem_numbered]
  constructor
  · rintro ⟨use, number, mem, hn⟩
    obtain ⟨c, bound, -⟩ := number_eq_some mem hn
    obtain ⟨named, outside, -⟩ := mem_foundIn.1 mem
    exact ⟨outside, _, _, c, named, bound⟩
  · rintro ⟨outside, name, span, c, named, bound⟩
    obtain ⟨use, number, mem, hn, -⟩ :=
      (foundIn_binds program).bound place name span c named bound outside
    exact ⟨use, number, mem, hn⟩

theorem renames_of_mem (tokened : Tokened code.toList program.root) {place : Place} {use : Use}
    {edit : Edit} (mem : (place, use) ∈ foundIn program) (some : use.edit? code.toUTF8 = some edit) :
    Renames program.root (declaredIn program) place edit := by
  obtain ⟨named, -, quoted, -⟩ := mem_foundIn.1 mem
  rw [edit?_of_token (tokened.token _ _ _ named)] at some
  obtain ⟨number, hn, rfl⟩ := Option.map_eq_some_iff.1 some
  obtain ⟨c, bound, -, rfl⟩ := number_eq_some mem hn
  exact ⟨_, _, c, use.quoted, named, bound, rfl, rfl, quoted, rfl⟩

theorem forall₂_renames (tokened : Tokened code.toList program.root) :
    List.Forall₂ (Renames program.root (declaredIn program))
      (PrivateName.numbered (foundIn program)) (editsOf code (resolve program)) := by
  rw [editsOf, ← uses_resolve]
  exact forall₂_numbered fun place use edit => renames_of_mem tokened

def Gives (root : Node) (declared : List (Place × String)) (place : Place) (edit : Edit) : Prop :=
  ∃ name span c quoted, NamedAt root place name span ∧ BoundTo root place name c ∧
    edit.content = newName quoted (declared.idxOf (c, name))

theorem forall₂_gives (code : String) :
    List.Forall₂ (Gives program.root (declaredIn program))
      (PrivateName.numbered (foundIn program)) (editsOf code (resolve program)) := by
  rw [editsOf, ← uses_resolve]
  refine forall₂_numbered fun place use edit mem some => ?_
  obtain ⟨number, hn, rfl⟩ := Option.map_eq_some_iff.1 some
  obtain ⟨c, bound, -, rfl⟩ := number_eq_some mem hn
  exact ⟨_, _, c, use.quoted, (mem_foundIn.1 mem).1, bound, rfl⟩

theorem fits_of_renames (tokened : Tokened code.toList program.root) {place : Place} {edit : Edit}
    {declared : List (Place × String)} (h : Renames program.root declared place edit) :
    edit.Fits code.toList := by
  obtain ⟨name, span, -, -, named, -, start, stop, -⟩ := h
  obtain ⟨before, word, behind, whole, -, rfl⟩ := tokened.token _ _ _ named
  exact ⟨before, '#' :: word, behind, whole, by simp, start, stop⟩

theorem clear_of_renames (tokened : Tokened code.toList program.root) {a b : Place} {e f : Edit}
    {declared : List (Place × String)} (he : Renames program.root declared a e)
    (hf : Renames program.root declared b f) (other : a ≠ b) :
    e.stop ≤ f.start ∨ f.stop ≤ e.start := by
  obtain ⟨_, span, -, -, named, -, start, stop, -⟩ := he
  obtain ⟨_, span', -, -, named', -, start', stop', -⟩ := hf
  rw [start, stop, start', stop']
  have token := tokened.token _ _ _ named
  have token' := tokened.token _ _ _ named'
  rcases Nat.lt_trichotomy span.start span'.start with less | same | greater
  · exact .inl (token.clear token' less)
  · exact absurd (tokened.apart _ _ _ _ _ _ named named' same) other
  · exact .inr (token'.clear token greater)

theorem nodup_numbered : (PrivateName.numbered (foundIn program)).Nodup :=
  List.Nodup.sublist (List.Sublist.map _ List.filter_sublist) (foundIn_binds program).once

theorem next_resolve : (resolve program).next = (declaredIn program).length := by
  rw [resolve_eq_found, Survey.found, Nat.zero_add, declaredIn]

theorem handedOut_iff (code : String) (number : Nat) :
    number < (declaredIn program).length ↔
      ∃ edit ∈ editsOf code (resolve program), ∃ quoted, edit.content = newName quoted number := by
  have related := @forall₂_gives program code
  constructor
  · intro less
    obtain ⟨c, name, pair⟩ : ∃ c name, (declaredIn program)[number] = (c, name) := ⟨_, _, rfl⟩
    have mem : (c, name) ∈ declaredIn program := pair ▸ List.getElem_mem less
    obtain ⟨declares, outside⟩ := ((numbered_declaredIn program).listed c name).1 mem
    obtain ⟨i, span, named, bound⟩ := declares.exists_bound
    have place : c ++ [.member i, .part 0] ∈ PrivateName.numbered (foundIn program) := by
      refine mem_numbered_iff.2 ⟨?_, name, span, c, named, bound⟩
      rintro ⟨j, type⟩
      rcases List.mem_append.1 type with type | type
      · exact outside ⟨j, type⟩
      · simp at type
    obtain ⟨edit, inside, name', span', c', quoted, named', bound', content⟩ :=
      exists_of_mem_left related place
    obtain ⟨rfl, -⟩ := namedAt_unique named named'
    obtain rfl := boundTo_unique bound bound'
    refine ⟨edit, inside, quoted, ?_⟩
    rw [content, ← pair, (nodup_declaredIn program).idxOf_getElem]
  · rintro ⟨edit, mem, quoted, content⟩
    obtain ⟨place, inside, name, span, c, quoted', named, bound, content'⟩ :=
      exists_of_mem_right related mem
    obtain ⟨outside, -⟩ := mem_numbered_iff.1 inside
    rw [newName_injective (content.symm.trans content')]
    exact List.idxOf_lt_length_of_mem (((numbered_declaredIn program).listed c name).2
      ⟨bound.2.1, fun types => outside (bound.1.inClassTypes types)⟩)

theorem convert_cases {dialect : Dialect} {conversion : Conversion}
    (h : convert dialect code = .ok conversion) :
    (conversion = .unchanged code ∧ (code.toList.contains '#' = false ∨
      ∃ program, Program.parse? dialect code.toList = some program ∧
        editsOf code (resolve program) = [])) ∨
    ∃ program out, code.toList.contains '#' = true ∧
      Program.parse? dialect code.toList = some program ∧ editsOf code (resolve program) ≠ [] ∧
      Edit.applyAll? code (editsOf code (resolve program)) = some out ∧
      conversion = ⟨out, (resolve program).classes, (resolve program).next,
        (editsOf code (resolve program)).length⟩ := by
  unfold convert at h
  cases marked : code.toList.contains '#' with
  | false =>
    rw [marked] at h
    exact .inl ⟨(Except.ok.inj h).symm, .inl rfl⟩
  | true =>
    rw [marked] at h
    cases parsed : Program.parse? dialect code.toList with
    | none =>
      rw [parsed] at h
      cases h
    | some program =>
      rw [parsed] at h
      cases edits : editsOf code (resolve program) with
      | nil =>
        simp only [edits] at h
        exact .inl ⟨(Except.ok.inj h).symm, .inr ⟨program, rfl, edits⟩⟩
      | cons e es =>
        simp only [edits] at h
        cases applied : Edit.applyAll? code (e :: es) with
        | none =>
          rw [applied] at h
          cases h
        | some out =>
          rw [applied] at h
          refine .inr ⟨program, out, rfl, rfl, ?_, ?_, ?_⟩
          · rw [edits]
            exact List.cons_ne_nil _ _
          · rw [edits, applied]
          · rw [edits]
            exact (Except.ok.inj h).symm

theorem exists_conversion {dialect : Dialect}
    (parsed : Program.parse? dialect code.toList = some program)
    (tokened : Tokened code.toList program.root) :
    ∃ conversion, convert dialect code = .ok conversion ∧
      Edit.applyAll? code (editsOf code (resolve program)) = some conversion.code ∧
      (editsOf code (resolve program) = [] → conversion = .unchanged code) ∧
      (editsOf code (resolve program) ≠ [] →
        conversion.names = (resolve program).next ∧ conversion.classes = (resolve program).classes ∧
        conversion.edits = (editsOf code (resolve program)).length) := by
  have related := forall₂_renames tokened
  have fits (edit : Edit) (mem : edit ∈ editsOf code (resolve program)) : edit.Fits code.toList := by
    obtain ⟨place, -, renames⟩ := exists_of_mem_right related mem
    exact fits_of_renames tokened renames
  obtain ⟨out, applied⟩ := applyAll?_of_disjoint fits
    (pairwise_of_forall₂ related nodup_numbered fun _ _ _ _ => clear_of_renames tokened)
  have same : Edit.applyAll? code [] = some code := by
    rw [Edit.applyAll?, Edit.sorted, List.mergeSort_nil, Edit.applySorted?_nil]
  unfold convert
  by_cases marked : code.toList.contains '#' = true
  · rw [marked, parsed]
    simp only [Bool.not_true, Bool.false_eq_true, if_false]
    cases edits : editsOf code (resolve program) with
    | nil => exact ⟨_, rfl, same, fun _ => rfl, fun some => absurd rfl some⟩
    | cons e es =>
      rw [edits] at applied
      simp only [applied]
      exact ⟨_, rfl, rfl, fun none => (List.cons_ne_nil _ _ none).elim, fun _ => ⟨rfl, rfl, rfl⟩⟩
  · -- Without a number sign there is no token that an edit could stand on.
    have none : editsOf code (resolve program) = [] := by
      rw [List.eq_nil_iff_forall_not_mem]
      intro edit mem
      obtain ⟨place, -, name, span, -, -, named, -⟩ := exists_of_mem_right related mem
      obtain ⟨before, word, behind, whole, -⟩ := tokened.token _ _ _ named
      exact marked (by simp [whole])
    rw [Bool.not_eq_true] at marked
    rw [marked, none]
    exact ⟨_, rfl, same, fun _ => rfl, fun some => absurd rfl some⟩

theorem exists_renamed {dialect : Dialect}
    (parsed : Program.parse? dialect code.toList = some program)
    (tokened : Tokened code.toList program.root) :
    ∃ conversion, convert dialect code = .ok conversion ∧
      Renamed code program.root (fun place => ¬InClassTypes place) (declaredIn program)
        (editsOf code (resolve program)) conversion := by
  obtain ⟨conversion, converted, applied, untouched, counts⟩ := exists_conversion parsed tokened
  have related := forall₂_renames tokened
  have classes := (ordered_program program).classes
  have empty (none : editsOf code (resolve program) = []) : declaredIn program = [] := by
    rw [← List.length_eq_zero_iff]
    by_contra some
    obtain ⟨edit, mem, -⟩ := (handedOut_iff code 0).1 (Nat.pos_of_ne_zero some)
    rw [none] at mem
    cases mem
  obtain ⟨names, count, length, unchanged⟩ : conversion.names = (declaredIn program).length ∧
      conversion.classes = ((declaredIn program).map Prod.fst).toFinset.card ∧
      conversion.edits = (editsOf code (resolve program)).length ∧
      (conversion = .unchanged code ↔ editsOf code (resolve program) = []) := by
    by_cases none : editsOf code (resolve program) = []
    · obtain rfl := untouched none
      simp [Conversion.unchanged, none, empty none]
    · obtain ⟨names, count, length⟩ := counts none
      refine ⟨?_, ?_, length, fun unchanged => absurd ?_ none, fun nil => absurd nil none⟩
      · rw [names, next_resolve]
      · rw [count, resolve_eq_found, Survey.found, classes, declaredIn]
      · rw [← List.length_eq_zero_iff, ← length, unchanged]
        rfl
  exact ⟨conversion, converted, numbered_declaredIn program,
    pairwise_of_forall₂ related nodup_numbered fun _ _ _ _ => clear_of_renames tokened,
    ⟨_, nodup_numbered, fun place => mem_numbered_iff, related⟩, handedOut_iff code, applied,
    names, count, length, unchanged⟩

/-- What holds for the private names of one kind holds for those of another one, if both take in the
same bound names and the same classes that declare names. -/
theorem Renamed.congr {root : Node} {kind kind' : Place → Prop} {declared : List (Place × String)}
    {edits : List Edit} {conversion : Conversion}
    (renamed : Renamed code root kind declared edits conversion)
    (bound : ∀ place name span c, NamedAt root place name span → BoundTo root place name c →
      (kind place ↔ kind' place))
    (declares : ∀ c name, DeclaresAt root c name → (kind c ↔ kind' c)) :
    Renamed code root kind' declared edits conversion where
  numbered :=
    ⟨fun c name => (renamed.numbered.listed c name).trans (and_congr_right (declares c name)),
      renamed.numbered.ordered⟩
  once := by
    obtain ⟨places, nodup, resolves, related⟩ := renamed.once
    refine ⟨places, nodup, fun place => (resolves place).trans ?_, related⟩
    exact and_congr_left fun ⟨name, span, c, named, binds⟩ => bound place name span c named binds
  disjoint := renamed.disjoint
  handedOut := renamed.handedOut
  applied := renamed.applied
  names := renamed.names
  classes := renamed.classes
  counted := renamed.counted
  unchanged := renamed.unchanged

/-- A bound name among the types of a class is not edited: all others need as many edits as there
are. -/
theorem not_renamed_of_bound (tokened : Tokened code.toList program.root) {place : Place}
    {name : String} {span : Span} {c : Place} (named : NamedAt program.root place name span)
    (bound : BoundTo program.root place name c) (types : InClassTypes place)
    {declared : List (Place × String)} {conversion : Conversion} :
    ¬Renamed code program.root (fun _ => True) declared (editsOf code (resolve program))
      conversion := by
  intro renamed
  obtain ⟨places, nodup, resolves, related⟩ := renamed.once
  have more : (place :: PrivateName.numbered (foundIn program)).length ≤ places.length := by
    refine (List.subperm_of_subset (List.nodup_cons.2 ⟨?_, nodup_numbered⟩) ?_).length_le
    · exact fun mem => (mem_numbered_iff.1 mem).1 types
    · intro p mem
      rcases List.mem_cons.1 mem with rfl | mem
      · exact (resolves p).2 ⟨trivial, name, span, c, named, bound⟩
      · exact (resolves p).2 ⟨trivial, (mem_numbered_iff.1 mem).2⟩
  have edits := related.length_eq.trans (forall₂_renames tokened).length_eq.symm
  rw [List.length_cons] at more
  omega

/-- A conversion edits each private name that a class binds once, with the new name of its binding, and
the new names are the first short names in the order of the classes: for all private names outside of
the types of classes in any case, and for all of them exactly if none that is bound stands there. -/
theorem convert_renames {dialect : Dialect}
    (parsed : Program.parse? dialect code.toList = some program)
    (tokened : Tokened code.toList program.root) :
    (∃ declared conversion, convert dialect code = .ok conversion ∧
      Renamed code program.root (fun place => ¬InClassTypes place) declared
        (editsOf code (resolve program)) conversion) ∧
    ((∃ declared conversion, convert dialect code = .ok conversion ∧
      Renamed code program.root (fun _ => True) declared
        (editsOf code (resolve program)) conversion) ↔
      ∀ place name span c, NamedAt program.root place name span →
        BoundTo program.root place name c → ¬InClassTypes place) := by
  obtain ⟨conversion, converted, renamed⟩ := exists_renamed parsed tokened
  refine ⟨⟨_, conversion, converted, renamed⟩, ?_, ?_⟩
  · rintro ⟨declared, conversion, -, renamed⟩ place name span c named bound types
    exact not_renamed_of_bound tokened named bound types renamed
  · intro outside
    refine ⟨_, conversion, converted, renamed.congr ?_ ?_⟩
    · intro place name span c named bound
      exact iff_of_true (outside place name span c named bound) trivial
    · intro c name declares
      obtain ⟨i, span, named, bound⟩ := declares.exists_bound
      exact iff_of_true
        (fun types => outside _ name span c named bound (bound.1.inClassTypes types)) trivial

end

/-! ## A brand check, and a name in a type parameter -/

def namesIn (root : Node) : List (Place × Span) :=
  root.places.filterMap fun place =>
    match root.at? place with
    | some (.privateName _ span) => some (place, span)
    | _ => none

theorem mem_namesIn {root : Node} {place : Place} {name : String} {span : Span}
    (h : NamedAt root place name span) : (place, span) ∈ namesIn root :=
  List.mem_filterMap.2 ⟨place, Node.mem_places h, by rw [h]⟩

theorem namedAt_of_mem {root : Node} {place : Place} {span : Span}
    (mem : (place, span) ∈ namesIn root) : ∃ name, NamedAt root place name span := by
  obtain ⟨p, -, found⟩ := List.mem_filterMap.1 mem
  split at found
  · obtain ⟨rfl, rfl⟩ := Prod.mk.inj (Option.some.inj found)
    exact ⟨_, ‹_›⟩
  · cases found

theorem apart_of_spans {root : Node} {spans : List Span}
    (listed : (namesIn root).map Prod.snd = spans) (apart : (spans.map Span.start).Nodup)
    {place place' : Place} {name name' : String} {span span' : Span}
    (named : NamedAt root place name span) (named' : NamedAt root place' name' span')
    (same : span.start = span'.start) : place = place' := by
  rw [← listed, List.map_map] at apart
  exact congrArg Prod.fst
    (List.inj_on_of_nodup_map apart (mem_namesIn named) (mem_namesIn named') same)

theorem tokened_of_spans {text : List Char} {root : Node} {spans : List Span}
    (listed : (namesIn root).map Prod.snd = spans) (tokens : ∀ span ∈ spans, IsToken text span)
    (apart : (spans.map Span.start).Nodup) : Tokened text root where
  token := fun _ _ _ named => tokens _ (listed ▸ List.mem_map_of_mem (mem_namesIn named))
  apart := fun _ _ _ _ _ _ => apart_of_spans listed apart

def brand : String := "class A \x7b #x; m(o) \x7b return #x in o; \x7d \x7d"

def brandProgram : Program :=
  ⟨false, [.declare false ["A"] [.classBody [] []
    [.form .member [.privateName "x" ⟨10, 12⟩],
      .form .member [.form .key [], .scope true ["o"] [.form .parameter [.name "o"],
        .scope false [] [.form .statement
          [.form .inCheck [.privateName "x" ⟨28, 30⟩, .name "o"]]]]]]
    []]]⟩

theorem convert_renames_brand :
    Program.parse? ⟨true, false⟩ brand.toList = some brandProgram ∧
      Tokened brand.toList brandProgram.root ∧
      ∃ declared conversion, convert ⟨true, false⟩ brand = .ok conversion ∧
        Renamed brand brandProgram.root (fun place => ¬InClassTypes place) declared
          (editsOf brand (resolve brandProgram)) conversion := by
  have parsed : Program.parse? ⟨true, false⟩ brand.toList = some brandProgram := by decide +kernel
  have first : IsToken brand.toList ⟨10, 12⟩ :=
    ⟨brand.toList.take 10, ['x'], brand.toList.drop 12, by decide, by decide, by decide⟩
  have second : IsToken brand.toList ⟨28, 30⟩ :=
    ⟨brand.toList.take 28, ['x'], brand.toList.drop 30, by decide, by decide, by decide⟩
  have spans : (namesIn brandProgram.root).map Prod.snd = [⟨10, 12⟩, ⟨28, 30⟩] := by decide +kernel
  have tokened : Tokened brand.toList brandProgram.root :=
    tokened_of_spans spans (by simp [first, second]) (by decide)
  exact ⟨parsed, tokened, (convert_renames parsed tokened).1⟩

def typeParameter : String :=
  "class A \x7b #x; m() \x7b class B<T extends \x7b [this.#x]: string \x7d> \x7b \x7d \x7d \x7d"

/-- The private name in the type parameter is not edited, so that it names nothing any more. -/
theorem convert_misses_typeParameter :
    Program.parse? ⟨true, false⟩ typeParameter.toList = some typeParameterProgram ∧
      Tokened typeParameter.toList typeParameterProgram.root ∧
      editsOf typeParameter (resolve typeParameterProgram) = [⟨10, 12, "$a"⟩] ∧
      ¬∃ declared conversion, convert ⟨true, false⟩ typeParameter = .ok conversion ∧
        Renamed typeParameter typeParameterProgram.root (fun _ => True) declared
          (editsOf typeParameter (resolve typeParameterProgram)) conversion := by
  have first : IsToken typeParameter.toList ⟨10, 12⟩ :=
    ⟨typeParameter.toList.take 10, ['x'], typeParameter.toList.drop 12, by decide, by decide,
      by decide⟩
  have second : IsToken typeParameter.toList ⟨46, 48⟩ :=
    ⟨typeParameter.toList.take 46, ['x'], typeParameter.toList.drop 48, by decide, by decide,
      by decide⟩
  have spans : (namesIn typeParameterProgram.root).map Prod.snd = [⟨10, 12⟩, ⟨46, 48⟩] := by
    decide +kernel
  have tokened : Tokened typeParameter.toList typeParameterProgram.root :=
    tokened_of_spans spans (by simp [first, second]) (by decide)
  refine ⟨by decide +kernel, tokened, by decide +kernel, ?_⟩
  let place : Place := [.part 0, .part 0, .member 1, .part 1, .part 0, .part 0, .part 0, .type 0,
    .part 0, .part 0, .part 0, .part 0, .part 1]
  have named : NamedAt typeParameterProgram.root place "x" ⟨46, 48⟩ := rfl
  have bound : BoundTo typeParameterProgram.root place "x" [.part 0, .part 0] :=
    (binder_eq_some_iff named "x" _).1 (by decide +kernel)
  rintro ⟨declared, conversion, -, renamed⟩
  exact not_renamed_of_bound tokened named bound ⟨0, by decide⟩ renamed

end BundlePrep.PrivateName
