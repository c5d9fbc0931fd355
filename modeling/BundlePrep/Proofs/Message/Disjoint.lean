import BundlePrep.Proofs.Message.Finding
import BundlePrep.Proofs.Message.Lexing
import BundlePrep.Proofs.Message.Preserving
import BundlePrep.Proofs.Message.Tokens

/-!
# Keys stand apart

A call stands inside of the key of another one only where the other key holds a parenthesis, and no key
that can be read does, as far as the language finds nothing in its comments. So the keys of a script cut
it, and in its transformed code each entry has a literal of its own.
-/

set_option autoImplicit false

namespace BundlePrep.Message

open BundlePrep.Json BundlePrep.Script BundlePrep.Text

/-! ## Keys among the pieces of a script -/

/-- The key of a call among the pieces of a script: it stands from its first item to its last, behind the
parenthesis in front of the arguments. -/
structure KeyPlace {script : List Char} (layout : Layout script) where
  before : List Piece
  gap : List Char
  first : Piece
  more : List Piece
  after : List Piece
  cut : layout.pieces = before ++ ⟨gap, .token, ['(']⟩ :: first :: (more ++ after)

theorem spell_key (last : List Char) (before : List Piece) (p first : Piece) (more after : List Piece) :
    spell last (before ++ p :: first :: (more ++ after)) =
      spell first.gap (before ++ [p]) ++ (keyText first more ++ spell last after) := by
  rw [spell_append, spell_append, ← spell_tail]
  congr 1
  simp only [spell, spell_append, keyText, List.append_assoc, spell_eq (spell last after) more]

theorem getLast?_ne_of_reads {last : List Char} {newline : Bool} {ps after : List Piece}
    (reads : Reads last newline (ps ++ after)) (nonempty : ps ≠ [])
    (other : ∀ p ∈ ps, p.goal ≠ .markupText) : (spell [] ps).getLast? ≠ some '\r' := by
  obtain ⟨qs, q, rfl⟩ := (List.eq_nil_or_concat' ps).resolve_left nonempty
  rw [List.append_assoc] at reads
  have item := reads.rest?
  have own := other q (by simp)
  rw [spell_append, spell_eq, spell, spell, List.append_nil, ← List.append_assoc,
    List.getLast?_append_of_ne_nil _ (Item.text_ne_nil item own)]
  intro ends
  have closed := closed_of_rest? item own '\r' ends
  cases closed

namespace KeyPlace

variable {script : List Char} {layout : Layout script} (place : KeyPlace layout)

def items : List Piece := place.first :: place.more

def text : List Char := keyText place.first place.more

def front : List Char :=
  layout.line ++ spell place.first.gap (place.before ++ [⟨place.gap, .token, ['(']⟩])

/-- The key of a call is the one at a place, and the items there are read as those of an expression. -/
structure Of (call : Call) : Prop where
  key : call.key.toList = place.text
  range : call.keyRange = ⟨positionOf place.front, positionOf (place.front ++ place.text)⟩
  plain : Plainly false place.items

theorem whole : script = place.front ++ (place.text ++ spell layout.last place.after) := by
  have whole := layout.whole
  rw [place.cut, spell_key, ← List.append_assoc] at whole
  exact whole

theorem reads :
    Reads layout.last false ({ place.first with gap := [] } :: place.more ++ place.after) := by
  have reads := layout.reads
  rw [place.cut] at reads
  exact reads.beyond.without_gap

variable {place}

theorem plain_items {key : Key} (plain : Plainly false place.items)
    (quiet : Grammar.IsKey Grammar.silent place.text key) :
    ∀ q ∈ place.items, q.goal = .template ∨ q.goal = .token ∧ q.text ≠ ['('] := by
  obtain ⟨_, ⟨ps, tail, whole, sound, ending, rfl⟩, denotes⟩ := quiet
  have items := Grammar.plain_items ending sound denotes.loose place.reads plain whole
  obtain ⟨first, more⟩ := List.forall_mem_cons.1 items
  exact List.forall_mem_cons.2 ⟨first, more⟩

variable {p q : KeyPlace layout}

/-- Between the parentheses in front of two keys stands the first of them, with other pieces behind it,
unless it holds the second parenthesis. -/
theorem exists_between (shorter : p.before.length < q.before.length)
    (closed : ∀ r ∈ p.items, ¬(r.goal = .token ∧ r.text = ['('])) :
    ∃ between, q.before = p.before ++ ⟨p.gap, .token, ['(']⟩ :: p.first :: (p.more ++ between) := by
  rcases List.append_eq_append_iff.1 (p.cut.symm.trans q.cut) with ⟨t, before, rest⟩ | ⟨t, before, -⟩
  · cases t with
    | nil => simp [before] at shorter
    | cons r t =>
      obtain ⟨rfl, behind⟩ := List.cons.inj rest
      rcases List.append_eq_append_iff.1 ((List.cons_append ..).trans behind) with
        ⟨u, rfl, -⟩ | ⟨u, items, rest⟩
      · exact ⟨u, before⟩
      · cases u with
        | nil => exact ⟨[], by rw [before, ← List.append_nil t, ← items]; simp⟩
        | cons r u =>
          obtain ⟨rfl, -⟩ := List.cons.inj rest
          have inside : ⟨q.gap, .token, ['(']⟩ ∈ p.items := by simp [KeyPlace.items, items]
          exact absurd ⟨rfl, rfl⟩ (closed _ inside)
  · have longer := congrArg List.length before
    simp only [List.length_append] at longer
    omega

theorem ends_before (shorter : p.before.length < q.before.length)
    (closed : ∀ r ∈ p.items, ¬(r.goal = .token ∧ r.text = ['('])) :
    p.front ++ p.text <+: q.front := by
  obtain ⟨between, same⟩ := exists_between shorter closed
  refine ⟨spell q.first.gap (between ++ [⟨q.gap, .token, ['(']⟩]), ?_⟩
  have later := spell_key q.first.gap p.before ⟨p.gap, .token, ['(']⟩ p.first p.more
    (between ++ [⟨q.gap, .token, ['(']⟩])
  rw [front, front, text, same, List.append_assoc, List.append_assoc, ← later]
  simp

theorem sound {key : Key} (plain : Plainly false place.items)
    (quiet : Grammar.IsKey Grammar.silent place.text key) (before content : List Char) :
    (Patch.mk before place.text content).Sound := by
  have items := place.plain_items plain quiet
  have other : ∀ q ∈ place.items, q.goal ≠ .markupText := by
    intro q mem same
    rcases items q mem with goal | ⟨goal, -⟩ <;> cases goal.symm.trans same
  obtain ⟨skips, item, -⟩ := place.reads
  have nonempty := Item.text_ne_nil item (other place.first (List.mem_cons_self ..))
  refine ⟨by simp [text, keyText, nonempty], fun head => ?_, ?_⟩
  · rw [if_pos (Grammar.gapped_of_plain plain.1)] at skips
    have begins := behindGap?_begins skips (by simp [nonempty])
    rw [text, keyText, List.head?_append_of_ne_nil _ nonempty] at head
    have own := begins '\n' (List.mem_head?_append_of_mem_head? head)
    cases own.1
  · exact getLast?_ne_of_reads place.reads (by simp) (by simpa [KeyPlace.items] using other)

variable {a b : Call}

theorem Of.ends_before (own : p.Of a) (own' : q.Of b)
    (quiet : ∃ key, Grammar.IsKey Grammar.silent a.key.toList key)
    (shorter : p.before.length < q.before.length) :
    notAfter a.keyRange.stop b.keyRange.start = true := by
  obtain ⟨key, quiet⟩ := quiet
  rw [own.key] at quiet
  have closed : ∀ r ∈ p.items, ¬(r.goal = .token ∧ r.text = ['(']) := by
    rintro r mem ⟨token, paren⟩
    rcases p.plain_items own.plain quiet r mem with template | ⟨-, other⟩
    · cases token.symm.trans template
    · exact other paren
  obtain ⟨x, same⟩ := KeyPlace.ends_before shorter closed
  rw [own.range, own'.range, ← same]
  exact (notAfter_positionOf _ x).1

theorem Of.clear (own : p.Of a) (own' : q.Of b) (starts : a.keyRange.start ≠ b.keyRange.start)
    (quiet : ∃ key, Grammar.IsKey Grammar.silent a.key.toList key)
    (quiet' : ∃ key, Grammar.IsKey Grammar.silent b.key.toList key) : Clear a.keyRange b.keyRange := by
  rcases lt_trichotomy p.before.length q.before.length with shorter | same | longer
  · exact .inl (own.ends_before own' quiet shorter)
  · obtain ⟨before, behind⟩ := List.append_inj (p.cut.symm.trans q.cut) same
    obtain ⟨paren, behind⟩ := List.cons.inj behind
    have front : p.front = q.front := by rw [front, front, before, paren, (List.cons.inj behind).1]
    exact absurd (by rw [own.range, own'.range, front]) starts
  · exact .inr (own'.ends_before own quiet' longer)

end KeyPlace

/-! ## Keys begin apart -/

/-- Calls at different places have keys that begin at different offsets, whichever function they call. -/
def StartsApart (program : Program) : Prop :=
  ∀ flavor place name site flavor' place' name' site', CallAt flavor program place name site →
    CallAt flavor' program place' name' site' → site.key.start = site'.key.start → place = place'

theorem function_injective {flavor flavor' : Flavor} (h : flavor.function = flavor'.function) :
    flavor = flavor' := by
  revert h
  cases flavor <;> cases flavor' <;> decide

theorem CalledBy.flavor_eq {flavor flavor' : Flavor} {program : Program} {n : Node} {name name' : String}
    (distinct : (importedNames program).Nodup) (h : CalledBy flavor program n name)
    (h' : CalledBy flavor' program n name') : flavor = flavor' := by
  induction h with
  | @member name imported =>
    generalize same : Node.dotted (.name name) flavor.function = callee at h'
    cases h' with
    | member => exact function_injective (Node.dotted.inj same).2
    | function | paren | last => cases same
  | @function name imported =>
    cases h' with
    | function imported' =>
      have first : ImportBinding.mk name' (some flavor.function) ∈ _ := mem_bindings.2 imported
      have second : ImportBinding.mk name' (some flavor'.function) ∈ _ := mem_bindings.2 imported'
      have same := List.inj_on_of_nodup_map distinct first second rfl
      exact function_injective (Option.some.inj (ImportBinding.mk.inj same).2)
  | paren _ ih => cases h' with | paren inner => exact ih inner
  | last _ ih => exact ih h'.of_last

theorem eq_of_positionOf_eq {p q text : List Char} (hp : p <+: text) (hq : q <+: text)
    (same : positionOf p = positionOf q) : p = q := by
  have self (r : List Char) : notAfter (positionOf r) (positionOf r) = true := by
    have := (notAfter_positionOf r []).1
    rwa [List.append_nil] at this
  have front := prefix_of_notAfter hp hq (same ▸ self p)
  have back := prefix_of_notAfter hq hp (same ▸ self q)
  exact front.eq_of_length_le back.length_le

theorem start_ne {flavor flavor' : Flavor} {text : List Char} {site site' : Site}
    (readable : ∃ key, parseKey (Call.ofSite flavor text (.ofText text) site).key = .ok key)
    (readable' : ∃ key, parseKey (Call.ofSite flavor' text (.ofText text) site').key = .ok key)
    (other : site.key.start ≠ site'.key.start) :
    (Call.ofSite flavor text (.ofText text) site).keyRange.start ≠
      (Call.ofSite flavor' text (.ofText text) site').keyRange.start := by
  obtain ⟨_, parsed⟩ := readable
  obtain ⟨_, parsed'⟩ := readable'
  obtain ⟨front, part, behind, whole, -, start, range⟩ := exists_key parsed
  obtain ⟨front', part', behind', whole', -, start', range'⟩ := exists_key parsed'
  intro same
  rw [range, range'] at same
  refine other ?_
  rw [start, start', eq_of_positionOf_eq ⟨_, whole.symm⟩ ⟨_, whole'.symm⟩ same]

theorem starts_apart {dialect : Dialect} {code : String} {program : Program}
    (parsed : Program.parse? dialect code.toList = some program)
    (distinct : (importedNames program).Nodup) (apart : StartsApart program)
    (readable : ∀ call ∈ recorded dialect code, ∃ key, parseKey call.key = .ok key) :
    (recorded dialect code).Pairwise fun a b => a.keyRange.start ≠ b.keyRange.start := by
  have each {flavor : Flavor} {site : Site} (named : _) (mem : site ∈ sites flavor program) :=
    readable _ (mem_recorded.2 ⟨named, program, parsed, flavor, site, mem, rfl⟩)
  unfold recorded
  split
  next named =>
    rw [parsed, Option.map_some, Option.getD_some, allCalls,
      (List.mergeSort_perm _ _).pairwise_iff fun h => Ne.symm h, List.pairwise_flatMap]
    constructor
    · intro flavor _
      refine List.pairwise_map.2 ((pairwise_sites flavor program).imp_of_mem ?_)
      intro site site' mem mem' less
      exact start_ne (each named mem) (each named mem') (Nat.ne_of_lt less)
    · have flavors : Flavor.all.Pairwise (· ≠ ·) := by decide
      refine flavors.imp fun {flavor flavor'} other call found call' found' => ?_
      obtain ⟨site, mem, rfl⟩ := List.mem_map.1 found
      obtain ⟨site', mem', rfl⟩ := List.mem_map.1 found'
      refine start_ne (each named mem) (each named mem') fun same => other ?_
      obtain ⟨place, name, at_, -⟩ := exists_callAt mem
      obtain ⟨place', name', at', -⟩ := exists_callAt mem'
      obtain rfl := apart _ _ _ _ _ _ _ _ at_ at' same
      obtain ⟨callee, _, _, _, _, found, called⟩ := at_
      obtain ⟨callee', _, _, _, _, found', called'⟩ := at'
      obtain ⟨rfl, -⟩ := Node.call.inj (Option.some.inj (found.symm.trans found'))
      exact called.flavor_eq distinct called'
  next => exact .nil

/-! ## The literals of entries -/

theorem exists_removed {front last : List Char} {ps : List Patch} {p : Patch} (mem : p ∈ ps) :
    ∃ before, before ++ p.removed <+: front ++ joined last ps ∧
      (⟨positionOf before, positionOf (before ++ p.removed)⟩, p.content) ∈ ranges front ps := by
  induction ps generalizing front with
  | nil => cases mem
  | cons q ps ih =>
    rcases List.mem_cons.1 mem with rfl | mem
    · exact ⟨front ++ p.before, ⟨joined last ps, by simp [joined]⟩, List.mem_cons_self ..⟩
    · obtain ⟨before, inside, found⟩ := @ih (front ++ q.before ++ q.removed) mem
      refine ⟨before, ?_, List.mem_cons_of_mem _ found⟩
      simpa [joined] using inside

/-- What the parser finds of the keys of calls: they begin apart, and they stand among the pieces of the
script. -/
structure Keyed (script : List Char) (program : Program) (calls : List Call) : Prop where
  apart : StartsApart program
  placed : ∃ layout : Layout script, ∀ call ∈ calls, ∃ place : KeyPlace layout, place.Of call

theorem KeyCut.sound {script last : List Char} {calls : List Call} {entries : List Entry}
    {ps : List Patch} (cut : KeyCut script calls entries ps last)
    (placed : ∀ call ∈ calls, ∃ (layout : Layout script) (place : KeyPlace layout), place.Of call)
    (quiet : ∀ call ∈ calls, ∃ key, Grammar.IsKey Grammar.silent call.key.toList key) :
    ∀ p ∈ ps, p.Sound := by
  intro p mem
  obtain ⟨before, inside, found⟩ := @exists_removed [] last ps p mem
  rw [List.nil_append, ← cut.whole] at inside
  rw [cut.places, replacements] at found
  obtain ⟨⟨call, entry⟩, pair, same⟩ := List.mem_map.1 found
  have recorded := (List.of_mem_zip pair).1
  obtain ⟨layout, place, own⟩ := placed call recorded
  obtain ⟨key, quiet⟩ := quiet call recorded
  rw [own.key] at quiet
  have ranges := (Prod.mk.inj same).1
  rw [own.range, Range.mk.injEq] at ranges
  have whole : place.front ++ place.text <+: script :=
    ⟨_, by rw [List.append_assoc]; exact place.whole.symm⟩
  have front := eq_of_positionOf_eq ((List.prefix_append ..).trans whole)
    ((List.prefix_append ..).trans inside) ranges.1
  have key := eq_of_positionOf_eq whole inside ranges.2
  rw [front, List.append_cancel_left_eq] at key
  have sound := place.sound own.plain quiet p.before p.content
  rwa [key] at sound

theorem KeyCut.contents {script last : List Char} {calls : List Call} {entries : List Entry}
    {ps : List Patch} (cut : KeyCut script calls entries ps last)
    (length : calls.length = entries.length) : ps.map Patch.content = entries.map literal := by
  have places := congrArg (List.map Prod.snd) cut.places
  have all : (calls.zip entries).map Prod.snd = entries := List.map_snd_zip (Nat.le_of_eq length.symm)
  rw [content_ranges, replacements, List.map_map] at places
  rw [places, ← all, List.map_map, all]
  rfl

theorem readable_of_extract {dialect : Dialect} {moduleId code : String} {extraction : Extraction}
    (extracted : extract dialect moduleId code = .ok extraction) :
    ∀ call ∈ recorded dialect code, ∃ key, parseKey call.key = .ok key := by
  have each : List.Forall₂ (fun call entry => (∃ key, parseKey call.key = .ok key) ∧
      entryOf moduleId call = .ok entry) (recorded dialect code) extraction.entries := by
    refine (extract_eq_ok extracted).1.imp fun call entry made => ?_
    obtain ⟨key, -, parsed, -⟩ := entryOf_eq_ok made
    exact ⟨⟨key, parsed⟩, made⟩
  exact ((List.forall₂_and_left _ _).1 each).1

/-- Where the imports of a script bind distinct names, and the language finds nothing in the comments of
keys, the keys of all calls of both functions are clear of each other, and in the transformed code each
entry has a literal of its own. -/
theorem keys_disjoint {dialect : Dialect} {moduleId code : String} {extraction : Extraction}
    (extracted : extract dialect moduleId code = .ok extraction)
    (distinct : ∀ program, Program.parse? dialect code.toList = some program →
      (importedNames program).Nodup)
    (keyed : ∀ program, Program.parse? dialect code.toList = some program →
      Keyed code.toList program (recorded dialect code))
    (quiet : ∀ call ∈ recorded dialect code,
      ∃ key, Grammar.IsKey Grammar.silent call.key.toList key) :
    (recorded dialect code).Pairwise (fun a b => Clear a.keyRange b.keyRange) ∧
      ∃ ps last, KeyCut code.toList (recorded dialect code) extraction.entries ps last ∧
        (around last [] ps).2.length = extraction.entries.length ∧
        extraction.code.toList = (around last [] ps).1 ++
          written literal (extraction.entries.zip (around last [] ps).2) := by
  have clear : (recorded dialect code).Pairwise (fun a b => Clear a.keyRange b.keyRange) := by
    cases parsed : Program.parse? dialect code.toList with
    | none =>
      refine List.pairwise_of_forall_mem_list fun call mem => ?_
      obtain ⟨-, program, found, -⟩ := mem_recorded.1 mem
      cases parsed.symm.trans found
    | some program =>
      obtain ⟨apart, layout, placed⟩ := keyed program parsed
      have starts := starts_apart parsed (distinct program parsed) apart (readable_of_extract extracted)
      refine starts.imp_of_mem fun {a b} mem mem' other => ?_
      obtain ⟨p, own⟩ := placed a mem
      obtain ⟨q, own'⟩ := placed b mem'
      exact own.clear own' other (quiet a mem) (quiet b mem')
  obtain ⟨ps, last, cut⟩ := exists_keyCut extracted clear
  have sound : ∀ p ∈ ps, p.Sound := by
    refine cut.sound (fun call mem => ?_) quiet
    obtain ⟨-, program, parsed, -⟩ := mem_recorded.1 mem
    obtain ⟨-, layout, placed⟩ := keyed program parsed
    exact ⟨layout, placed call mem⟩
  have contents := cut.contents (extract_eq_ok extracted).1.length_eq
  have count := congrArg List.length contents
  rw [List.length_map, List.length_map] at count
  refine ⟨clear, ps, last, cut, by rw [length_around, count], ?_⟩
  rw [code_woven extracted sound cut.whole cut.places, weave_eq last [] contents]

theorem exists_silent_key {text : String} {key : Key}
    (plain : ∀ c ∈ text.toList, Grammar.isOtherLineEnd c = false) (parsed : parseKey text = .ok key) :
    ∃ key, Grammar.IsKey Grammar.silent text.toList key :=
  ⟨key, ((Grammar.isKey_of_parseKey parsed).within (Grammar.accepted_within_shared plain)).within
    (Grammar.shared_within_silent _)⟩

/-! ## Two keys with parentheses in texts and comments -/

def parentheses (first second : String) : String :=
  "import \x7b localize, localize2 \x7d from 'nls';\nlocalize(" ++ first ++ ", 'm');\nlocalize2(" ++
    second ++ ", 'n');"

def parenthesesText : String := parentheses "\x7b key: \x60a\x60, comment: ['('] \x7d" "'b' /*(*/ + 'c'"

def parenthesesCode : String := parentheses "\"%%NLS:m#a%%\"" "\"%%NLS2:m#bc%%\""

def parenthesesProgram : Program :=
  (Program.parse? ⟨true, false⟩ parenthesesText.toList).getD ⟨false, []⟩

def parenthesesCalls : List Call :=
  [⟨.blank, "\x7b key: \x60a\x60, comment: ['('] \x7d", ⟨⟨1, 9⟩, ⟨1, 37⟩⟩, "'m'", ⟨⟨1, 39⟩, ⟨1, 42⟩⟩⟩,
    ⟨.keep, "'b' /*(*/ + 'c'", ⟨⟨2, 10⟩, ⟨2, 25⟩⟩, "'n'", ⟨⟨2, 27⟩, ⟨2, 30⟩⟩⟩]

def parenthesesEntries : List Entry :=
  [.ofCall .blank "m" (.described "a" ["("]) "m", .ofCall .keep "m" (.plain "bc") "n"]

def parenthesesPieces : List (List Piece) :=
  [[Piece.token "" "import", Piece.token " " "\x7b", Piece.token " " "localize", Piece.token "" ",",
      Piece.token " " "localize2", Piece.token " " "\x7d", Piece.token " " "from", Piece.token " " "'nls'",
      Piece.token "" ";", Piece.token "\n" "localize"],
    [Piece.token "" "(", Piece.token "" "\x7b", Piece.token " " "key", Piece.token "" ":",
      Piece.token " " "\x60", ⟨[], .template, "a\x60".toList⟩, Piece.token "" ",",
      Piece.token " " "comment", Piece.token "" ":", Piece.token " " "[", Piece.token "" "'('",
      Piece.token "" "]", Piece.token " " "\x7d", Piece.token "" ",", Piece.token " " "'m'",
      Piece.token "" ")", Piece.token "" ";", Piece.token "\n" "localize2"],
    [Piece.token "" "(", Piece.token "" "'b'", Piece.token " /*(*/ " "+", Piece.token " " "'c'",
      Piece.token "" ",", Piece.token " " "'n'", Piece.token "" ")", Piece.token "" ";"]]

def parenthesesLayout : Layout parenthesesText.toList :=
  ⟨[], parenthesesPieces.flatten, [], by decide +kernel, by decide +kernel, by decide +kernel⟩

theorem extract_parentheses : recorded ⟨true, false⟩ parenthesesText = parenthesesCalls ∧
    extract ⟨true, false⟩ "m" parenthesesText = .ok ⟨parenthesesCode, parenthesesEntries⟩ := by
  have replaced : String.ofList (replaceKeys (.ofText parenthesesText.toList)
      (parenthesesCalls.zip parenthesesEntries)).toText = parenthesesCode := by
    decide +kernel
  rw [← replaced]
  exact extract_of_sorted (by decide +kernel) (by decide +kernel) (by decide +kernel)
    (by decide +kernel) (by decide +kernel)

theorem startsApart_of_callSites {program : Program}
    (apart : ∀ flavor ∈ Flavor.all, ∀ f ∈ callSites flavor program, ∀ flavor' ∈ Flavor.all,
      ∀ g ∈ callSites flavor' program, f.2.key.start = g.2.key.start → f.1 = g.1) :
    StartsApart program := by
  intro flavor _ _ _ flavor' _ _ _ call call'
  exact apart _ (mem_flavors flavor) _ (mem_callSites.2 ⟨_, call⟩) _ (mem_flavors flavor') _
    (mem_callSites.2 ⟨_, call'⟩)

theorem keyed_parentheses : Keyed parenthesesText.toList parenthesesProgram parenthesesCalls := by
  refine ⟨startsApart_of_callSites (by decide +kernel), parenthesesLayout, ?_⟩
  refine List.forall_mem_cons.2 ⟨⟨⟨parenthesesPieces[0], [], parenthesesPieces[1][1],
    parenthesesPieces[1].extract 2 13, parenthesesPieces[1].drop 13 ++ parenthesesPieces[2], rfl⟩, ?_⟩,
    List.forall_mem_singleton.2 ⟨⟨parenthesesPieces[0] ++ parenthesesPieces[1], [],
      parenthesesPieces[2][1], parenthesesPieces[2].extract 2 4, parenthesesPieces[2].drop 4, rfl⟩, ?_⟩⟩
  · exact ⟨by decide +kernel, by decide +kernel, by decide +kernel⟩
  · exact ⟨by decide +kernel, by decide +kernel, by decide +kernel⟩

theorem keys_disjoint_parentheses :
    extract ⟨true, false⟩ "m" parenthesesText = .ok ⟨parenthesesCode, parenthesesEntries⟩ ∧
      recorded ⟨true, false⟩ parenthesesText = parenthesesCalls ∧
      (importedNames parenthesesProgram).Nodup ∧
      Keyed parenthesesText.toList parenthesesProgram parenthesesCalls ∧
      (∀ call ∈ parenthesesCalls, ∃ key, Grammar.IsKey Grammar.silent call.key.toList key) ∧
      (parenthesesCalls.Pairwise fun a b => Clear a.keyRange b.keyRange) ∧
      ∃ ps last, KeyCut parenthesesText.toList parenthesesCalls parenthesesEntries ps last ∧
        (around last [] ps).2.length = 2 ∧
        parenthesesCode.toList = (around last [] ps).1 ++
          written literal (parenthesesEntries.zip (around last [] ps).2) := by
  obtain ⟨found, extracted⟩ := extract_parentheses
  have distinct : (importedNames parenthesesProgram).Nodup := by decide +kernel
  have own {program : Program}
      (parsed : Program.parse? ⟨true, false⟩ parenthesesText.toList = some program) :
      parenthesesProgram = program := by rw [parenthesesProgram, parsed, Option.getD_some]
  have plain : ∀ call ∈ parenthesesCalls, ∀ c ∈ call.key.toList, Grammar.isOtherLineEnd c = false := by
    decide +kernel
  have quiet : ∀ call ∈ parenthesesCalls,
      ∃ key, Grammar.IsKey Grammar.silent call.key.toList key := by
    intro call mem
    obtain ⟨key, parsed⟩ := readable_of_extract extracted call (found ▸ mem)
    exact exists_silent_key (plain call mem) parsed
  have whole := keys_disjoint extracted (fun program parsed => own parsed ▸ distinct)
    (fun program parsed => by rw [found, ← own parsed]; exact keyed_parentheses)
    (by rw [found]; exact quiet)
  rw [found] at whole
  exact ⟨extracted, found, distinct, keyed_parentheses, quiet, whole⟩

/-! ## A key in another one -/

def crossedText : String :=
  "import \x7b localize \x7d from 'nls';\nlocalize('a'//\r+localize('b','c')\n,'m');"

def crossedCode : String :=
  "import \x7b localize \x7d from 'nls';\nlocalize(\"%%NLS:m#a%%\"#b%%\",'c')\n,'m');"

def crossedProgram : Program :=
  (Program.parse? ⟨true, false⟩ crossedText.toList).getD ⟨false, []⟩

def crossedSites : List Site := [⟨⟨41, 65⟩, ⟨67, 70⟩⟩, ⟨⟨57, 60⟩, ⟨61, 64⟩⟩]

def crossedCalls : List Call :=
  [⟨.blank, "'a'//\r+localize('b','c')", ⟨⟨1, 9⟩, ⟨1, 33⟩⟩, "'m'", ⟨⟨2, 1⟩, ⟨2, 4⟩⟩⟩,
    ⟨.blank, "'b'", ⟨⟨1, 25⟩, ⟨1, 28⟩⟩, "'c'", ⟨⟨1, 29⟩, ⟨1, 32⟩⟩⟩]

def crossedEntries : List Entry :=
  [.ofCall .blank "m" (.plain "a") "m", .ofCall .blank "m" (.plain "b") "c"]

theorem parse?_crossed : Program.parse? ⟨true, false⟩ crossedText.toList = some crossedProgram := by
  have parsed : (Program.parse? ⟨true, false⟩ crossedText.toList).isSome = true := by decide +kernel
  obtain ⟨program, found⟩ := Option.isSome_iff_exists.1 parsed
  rw [crossedProgram, found, Option.getD_some]

theorem sites_crossed :
    sites .blank crossedProgram = crossedSites ∧ sites .keep crossedProgram = [] := by
  refine ⟨?_, by decide +kernel⟩
  have walked : (walkAll .blank (.ofProgram .blank crossedProgram) [] crossedProgram.body).sites =
      crossedSites := by decide +kernel
  have sorted : crossedSites.Pairwise fun a b => decide (a.key.start ≤ b.key.start) = true := by decide
  rw [sites, if_neg (by decide +kernel), walked, orderSites, List.mergeSort_of_pairwise sorted]
  rfl

theorem extract_crossed : recorded ⟨true, false⟩ crossedText = crossedCalls ∧
    extract ⟨true, false⟩ "m" crossedText = .ok ⟨crossedCode, crossedEntries⟩ := by
  have replaced : String.ofList (replaceKeys (.ofText crossedText.toList)
      (crossedCalls.zip crossedEntries)).toText = crossedCode := by
    decide +kernel
  have listed : (Program.parse? ⟨true, false⟩ crossedText.toList).map (fun program =>
      Flavor.all.flatMap fun flavor => calls flavor crossedText.toList program) = some crossedCalls := by
    rw [parse?_crossed, Option.map_some]
    simp only [Flavor.all, List.flatMap_cons, List.flatMap_nil, calls, sites_crossed.1, sites_crossed.2]
    decide +kernel
  rw [← replaced]
  exact extract_of_sorted (by decide +kernel) listed (by decide +kernel) (by decide +kernel)
    (by decide +kernel)

/-- Both keys are replaced, and the literal of the inner one does not stand in the transformed code. -/
theorem keys_crossed :
    Program.parse? ⟨true, false⟩ crossedText.toList = some crossedProgram ∧
      (importedNames crossedProgram).Nodup ∧
      extract ⟨true, false⟩ "m" crossedText = .ok ⟨crossedCode, crossedEntries⟩ ∧
      (¬(recorded ⟨true, false⟩ crossedText).Pairwise fun a b => Clear a.keyRange b.keyRange) ∧
      occursIn (literal (.ofCall .blank "m" (.plain "b") "c")) crossedCode.toList = false := by
  obtain ⟨found, extracted⟩ := extract_crossed
  refine ⟨parse?_crossed, by decide +kernel, extracted, fun clear => ?_, by decide +kernel⟩
  rw [found] at clear
  rcases List.pairwise_pair.1 clear with ends | ends <;> exact absurd ends (by decide)

end BundlePrep.Message
