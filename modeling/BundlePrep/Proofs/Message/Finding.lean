import BundlePrep.Proofs.Message.Keys
import BundlePrep.Proofs.Message.Recorded
import Mathlib.Data.List.Sort

/-!
# Calls are found once each

Where nothing but the imports binds an imported name, no call is hidden. The walk then finds every call
of a function, however deep it stands, and the order of the keys keeps each of them once.
-/

set_option autoImplicit false

namespace BundlePrep.Message

open BundlePrep.Script BundlePrep.Text

/-! ## Names that nothing binds -/

/-- A node gives a name a scope, or declares it in the scopes around. -/
def BindsName (n : Node) (name : String) : Prop :=
  name ∈ ownNames n ∨ ∃ hoisted, DeclaresName n hoisted name

/-- No node of a program binds a name that its imports bind. -/
def ImportsAlone (program : Program) : Prop :=
  ∀ place n name exported, program.root.at? place = some n → ImportsAs program exported name →
    ¬BindsName n name

/-- Calls at different places have keys that begin at different offsets. -/
def KeysApart (flavor : Flavor) (program : Program) : Prop :=
  ∀ place name site place' name' site', CallAt flavor program place name site →
    CallAt flavor program place' name' site' → site.key.start = site'.key.start → place = place'

section

variable {flavor : Flavor} {program : Program} {place : Place} {name : String} {site : Site}

theorem CalledBy.importsAs {n : Node} (h : CalledBy flavor program n name) :
    ∃ exported, ImportsAs program exported name := by
  induction h with
  | member imported => exact ⟨_, imported⟩
  | function imported => exact ⟨_, imported⟩
  | paren _ ih => exact ih
  | last _ ih => exact ih

theorem ImportsAlone.not_noticed (alone : ImportsAlone program) {exported : Option String}
    (imported : ImportsAs program exported name) : ¬Noticed program.root place name := by
  rintro ⟨scope, -, ⟨n, at_, own⟩ | ⟨p, hoisted, -, ⟨n, names, at_, declared, mem⟩, -⟩⟩
  · exact alone _ _ _ _ at_ imported (.inl own)
  · exact alone _ _ _ _ at_ imported (.inr ⟨hoisted, names, declared, mem⟩)

theorem ImportsAlone.mem_sites_iff (alone : ImportsAlone program)
    (apart : KeysApart flavor program) :
    site ∈ sites flavor program ↔ ∃ place name, CallAt flavor program place name site := by
  constructor
  · intro mem
    obtain ⟨place, name, call, -⟩ := exists_callAt mem
    exact ⟨place, name, call⟩
  · rintro ⟨place, name, call⟩
    have called := call
    obtain ⟨_, _, _, _, _, -, calledBy⟩ := called
    obtain ⟨exported, imported⟩ := calledBy.importsAs
    have unrivalled : Unrivalled flavor program place site :=
      fun place' name' site' call' same => apart _ _ _ _ _ _ call' call same
    exact (Message.mem_sites_iff call unrivalled).2 (alone.not_noticed imported)

end

/-! ## The order of the keys -/

theorem pairwise_sites (flavor : Flavor) (program : Program) :
    (sites flavor program).Pairwise fun a b => a.key.start < b.key.start := by
  rw [sites]
  split
  · exact .nil
  · refine @pairwise_eraseRepsBy Site _ (fun a b => a.key.start ≤ b.key.start) _ ?_ ?_ _ ?_
    · intro a b le other
      exact lt_of_le_of_ne le (by simpa using other)
    · exact fun a b c => lt_of_lt_of_le
    · have sorted := @List.pairwise_mergeSort Site (fun a b => a.key.start ≤ b.key.start)
        (fun a b c => by simpa using le_trans) (fun a b => by simpa using le_total _ _)
        (walkAll flavor (.ofProgram flavor program) [] program.body).sites
      simpa using sorted

/-! ## The parts of a text -/

/-- A range of bytes lies between characters of a text. -/
def BetweenCharacters (text : List Char) (span : Span) : Prop :=
  (slice? text span.start span.stop).isSome = true

instance (text : List Char) (span : Span) : Decidable (BetweenCharacters text span) :=
  inferInstanceAs (Decidable (_ = _))

/-- A part is what stands in a text at the bytes of a span, and a range gives the positions at which
it begins and ends. -/
def Cites (text : List Char) (span : Span) (range : Range) (part : String) : Prop :=
  ∃ front behind, text = front ++ (part.toList ++ behind) ∧
    span = ⟨byteLength front, byteLength (front ++ part.toList)⟩ ∧
    range = ⟨positionOf front, positionOf (front ++ part.toList)⟩

theorem cites_textAt {text : List Char} {span : Span} (h : BetweenCharacters text span) :
    Cites text span ((LineIndex.ofText text).range span.start span.stop) (textAt text span) := by
  obtain ⟨part, found⟩ := Option.isSome_iff_exists.1 h
  obtain ⟨front, behind, whole, start, stop⟩ := slice?_eq_some found
  obtain ⟨first, last⟩ := span
  obtain rfl : first = byteLength front := start
  obtain rfl : last = byteLength (front ++ part) := stop
  have second : text = (front ++ part) ++ behind := by rw [whole, List.append_assoc]
  have cited : (textAt text ⟨byteLength front, byteLength (front ++ part)⟩).toList = part := by
    rw [textAt, found]
    exact String.toList_ofList
  refine ⟨front, behind, by rwa [cited], by rw [cited], ?_⟩
  rw [cited, LineIndex.range]
  congr 1
  · rw [whole, position_append]
  · rw [second, position_append]

/-- A call shows the arguments at a site of a function as they stand in the text. -/
structure Shows (flavor : Flavor) (text : List Char) (site : Site) (call : Call) : Prop where
  flavor : call.flavor = flavor
  key : Cites text site.key call.keyRange call.key
  message : Cites text site.message call.messageRange call.message

theorem shows_ofSite {flavor : Flavor} {text : List Char} {site : Site}
    (key : BetweenCharacters text site.key) (message : BetweenCharacters text site.message) :
    Shows flavor text site (.ofSite flavor text (.ofText text) site) :=
  ⟨rfl, cites_textAt key, cites_textAt message⟩

/-! ## The calls of a program -/

/-- Where nothing but the imports of a program binds an imported name, each call of a function in it is
found once, in the order of the keys, with its arguments as they stand in the text. -/
theorem calls_each_once {flavor : Flavor} {program : Program} {text : List Char}
    (alone : ImportsAlone program) (apart : KeysApart flavor program)
    (within : ∀ place name site, CallAt flavor program place name site →
      BetweenCharacters text site.key ∧ BetweenCharacters text site.message) :
    ∃ found : List (Place × Site),
      (∀ place site, (place, site) ∈ found ↔ ∃ name, CallAt flavor program place name site) ∧
      (found.map Prod.fst).Nodup ∧
      found.Pairwise (fun a b => a.2.key.start < b.2.key.start) ∧
      List.Forall₂ (fun f call => Shows flavor text f.2 call) found (calls flavor text program) := by
  have each : ∀ site ∈ sites flavor program, ∃ place name, CallAt flavor program place name site :=
    fun site => (alone.mem_sites_iff apart).1
  choose! place own using each
  have ordered := pairwise_sites flavor program
  refine ⟨(sites flavor program).map fun site => (place site, site), fun p site => ?_, ?_, ?_, ?_⟩
  · constructor
    · intro mem
      obtain ⟨site', inside, same⟩ := List.mem_map.1 mem
      obtain ⟨rfl, rfl⟩ := Prod.mk.inj same
      exact own _ inside
    · rintro ⟨name, call⟩
      have mem := (alone.mem_sites_iff apart).2 ⟨p, name, call⟩
      obtain ⟨name', call'⟩ := own site mem
      obtain rfl := apart _ _ _ _ _ _ call' call rfl
      exact List.mem_map_of_mem mem
  · -- A place has one site, and no two sites have keys that begin at one offset.
    rw [List.map_map]
    refine List.pairwise_map.2 (ordered.imp_of_mem fun {a b} memA memB less same => ?_)
    obtain ⟨name, call⟩ := own a memA
    obtain ⟨name', call'⟩ := own b memB
    have same : place a = place b := same
    rw [same] at call
    rw [(call.unique call').2] at less
    exact lt_irrefl _ less
  · exact List.pairwise_map.2 ordered
  · rw [calls]
    refine List.forall₂_map_left_iff.2 (List.forall₂_map_right_iff.2 (List.forall₂_same.2 ?_))
    intro site mem
    obtain ⟨name, call⟩ := own site mem
    exact shows_ofSite (within _ _ _ call).1 (within _ _ _ call).2

/-! ## A program whose calls are nested -/

def callAt? (flavor : Flavor) (program : Program) (place : Place) : Option Site :=
  match program.root.at? place with
  | some (.call callee arguments _) =>
    if isTarget flavor (.ofProgram flavor program) [] callee then siteOf? arguments else none
  | _ => none

theorem CallAt.callAt? {flavor : Flavor} {program : Program} {place : Place} {name : String}
    {site : Site} (h : CallAt flavor program place name site) :
    callAt? flavor program place = some site := by
  obtain ⟨callee, key, message, more, types, at_, called⟩ := h
  have target : isTarget flavor (.ofProgram flavor program) [] callee = true :=
    (isTarget_iff [] callee).2 ⟨name, called, rfl⟩
  simp only [Message.callAt?, at_, target, if_true]
  exact siteOf?_eq_some.2 ⟨key, message, more, rfl⟩

theorem exists_callAt_of_callAt? {flavor : Flavor} {program : Program} {place : Place} {site : Site}
    (h : callAt? flavor program place = some site) : ∃ name, CallAt flavor program place name site := by
  unfold callAt? at h
  split at h
  next callee arguments types at_ =>
    split at h
    next target =>
      obtain ⟨name, called, -⟩ := (isTarget_iff [] callee).1 target
      obtain ⟨key, message, more, rfl⟩ := siteOf?_eq_some.1 h
      exact ⟨name, callee, key, message, more, types, at_, called⟩
    next => cases h
  next => cases h

def callSites (flavor : Flavor) (program : Program) : List (Place × Site) :=
  program.root.places.filterMap fun place => (callAt? flavor program place).map (place, ·)

theorem mem_callSites {flavor : Flavor} {program : Program} {place : Place} {site : Site} :
    (place, site) ∈ callSites flavor program ↔ ∃ name, CallAt flavor program place name site := by
  rw [callSites, List.mem_filterMap]
  constructor
  · rintro ⟨p, -, found⟩
    obtain ⟨_, here, same⟩ := Option.map_eq_some_iff.1 found
    obtain ⟨rfl, rfl⟩ := Prod.mk.inj same
    exact exists_callAt_of_callAt? here
  · rintro ⟨name, call⟩
    have found := call.callAt?
    obtain ⟨_, _, _, _, _, at_, -⟩ := call
    exact ⟨place, Node.mem_places at_, by rw [found]; rfl⟩

theorem keysApart_of_callSites {flavor : Flavor} {program : Program}
    (apart : ∀ f ∈ callSites flavor program, ∀ g ∈ callSites flavor program,
      f.2.key.start = g.2.key.start → f.1 = g.1) : KeysApart flavor program :=
  fun _ _ _ _ _ _ call call' => apart _ (mem_callSites.2 ⟨_, call⟩) _ (mem_callSites.2 ⟨_, call'⟩)

/-- The names that the imports of the localization module bind. -/
def importedNames (program : Program) : List String :=
  (if program.isModule then program.body.flatMap Imports.bindingsOf else []).map (·.bound)

theorem importsAlone_of_places {program : Program}
    (alone : ∀ place ∈ program.root.places, ∀ name ∈ importedNames program,
      name ∉ Scoping.namesAt ownNames program.root place ∧
        ∀ hoisted, name ∉ noticed.declaredAt program.root place hoisted) :
    ImportsAlone program := by
  intro place n name exported at_ imported binds
  obtain ⟨own, declared⟩ := alone place (Node.mem_places at_) name
    (List.mem_map.2 ⟨⟨name, exported⟩, mem_bindings.2 imported, rfl⟩)
  rcases binds with mem | ⟨hoisted, names, declares, mem⟩
  · exact own (Scoping.mem_namesAt.2 ⟨n, at_, mem⟩)
  · exact declared hoisted (noticed.mem_declaredAt.2 ⟨n, names, at_, declares, mem⟩)

theorem eq_of_ordered {a b : List (Place × Site)}
    (ha : a.Pairwise fun f g => f.2.key.start < g.2.key.start)
    (hb : b.Pairwise fun f g => f.2.key.start < g.2.key.start) (same : ∀ f, f ∈ a ↔ f ∈ b) :
    a = b := by
  have distinct {l : List (Place × Site)}
      (h : l.Pairwise fun f g => f.2.key.start < g.2.key.start) : l.Nodup := by
    refine h.imp ?_
    rintro f _ less rfl
    exact lt_irrefl _ less
  refine List.Perm.eq_of_pairwise (fun f g _ _ less more => ?_) ha hb
    ((List.perm_ext_iff_of_nodup (distinct ha) (distinct hb)).2 same)
  exact absurd more (lt_asymm less)

def nested : String :=
  "import * as n from 'nls';import\x7blocalize as l\x7dfrom'nls.js';" ++
    "class A\x7b@l('a','b')f(x=(0,n.localize)('c','d'))\x7breturn`$\x7bl(l('e','f'),'g')\x7d`\x7d\x7d"

def nestedProgram : Program := (Program.parse? ⟨true, false⟩ nested.toList).getD ⟨false, []⟩

def nestedCalls : List (Place × Site) :=
  (callSites .blank nestedProgram).insertionSort fun f g => f.2.key.start ≤ g.2.key.start

theorem calls_each_once_nested :
    ImportsAlone nestedProgram ∧ KeysApart .blank nestedProgram ∧
      (∀ place name site, CallAt .blank nestedProgram place name site →
        BetweenCharacters nested.toList site.key ∧ BetweenCharacters nested.toList site.message) ∧
      ∃ found : List (Place × Site),
        (∀ place site, (place, site) ∈ found ↔ ∃ name, CallAt .blank nestedProgram place name site) ∧
        found.map (fun f => (textAt nested.toList f.2.key, textAt nested.toList f.2.message)) =
          [("'a'", "'b'"), ("'c'", "'d'"), ("l('e','f')", "'g'"), ("'e'", "'f'")] ∧
        List.Forall₂ (fun f call => Shows .blank nested.toList f.2 call) found
          (calls .blank nested.toList nestedProgram) := by
  obtain ⟨unbound, starts, within, ordered, texts⟩ :
      (∀ place ∈ nestedProgram.root.places, ∀ name ∈ importedNames nestedProgram,
        name ∉ Scoping.namesAt ownNames nestedProgram.root place ∧
          ∀ hoisted, name ∉ noticed.declaredAt nestedProgram.root place hoisted) ∧
      (∀ f ∈ callSites .blank nestedProgram, ∀ g ∈ callSites .blank nestedProgram,
        f.2.key.start = g.2.key.start → f.1 = g.1) ∧
      (∀ f ∈ callSites .blank nestedProgram,
        BetweenCharacters nested.toList f.2.key ∧ BetweenCharacters nested.toList f.2.message) ∧
      (nestedCalls.Pairwise fun f g => f.2.key.start < g.2.key.start) ∧
      nestedCalls.map
        (fun f => (textAt nested.toList f.2.key, textAt nested.toList f.2.message)) =
          [("'a'", "'b'"), ("'c'", "'d'"), ("l('e','f')", "'g'"), ("'e'", "'f'")] := by
    decide +kernel
  have alone : ImportsAlone nestedProgram := importsAlone_of_places unbound
  have apart : KeysApart .blank nestedProgram := keysApart_of_callSites starts
  have ranges : ∀ place name site, CallAt .blank nestedProgram place name site →
      BetweenCharacters nested.toList site.key ∧ BetweenCharacters nested.toList site.message :=
    fun _ _ _ call => within _ (mem_callSites.2 ⟨_, call⟩)
  obtain ⟨found, all, -, inOrder, shown⟩ := calls_each_once alone apart ranges
  -- Two lists with the same calls in the order of their keys are the same.
  have same : nestedCalls = found := eq_of_ordered ordered inOrder fun f =>
    (List.mem_insertionSort _).trans (mem_callSites.trans (all f.1 f.2).symm)
  exact ⟨alone, apart, ranges, found, all, same ▸ texts, shown⟩

end BundlePrep.Message
