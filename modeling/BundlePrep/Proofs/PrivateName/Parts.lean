import BundlePrep.Proofs.PrivateName.Renaming
import BundlePrep.Proofs.Script.Spelling

/-!
# The text of a converted script

Each private name of a script is one item, at the range of its node. A conversion puts the new names
in the places of those that have numbers, and leaves all other items and all gaps as they are.
-/

set_option autoImplicit false

namespace BundlePrep.PrivateName

open BundlePrep.Script BundlePrep.Text

/-- A part of a script: a piece, or a private name that is replaced. -/
inductive Part where
  | piece (p : Piece)
  | name (gap text : List Char) (quoted : Bool) (number : Nat)
  deriving DecidableEq, Repr

namespace Part

def old : Part → Piece
  | .piece p => p
  | .name gap text _ _ => ⟨gap, .token, text⟩

def new : Part → Piece
  | .piece p => p
  | .name gap _ quoted number => ⟨gap, .token, (newName quoted number).toList⟩

def portions : Part → List Portion
  | .piece p => [.kept p.gap, .kept p.text]
  | .name gap text quoted number =>
    [.kept gap, .changed text (newName quoted number).toList]

def Sound : Part → Prop
  | .piece _ => True
  | .name _ text _ _ => text.head? = some '#'

end Part

/-! ## Private names among the pieces of a script -/

def IsPrivate (p : Piece) : Prop := p.goal = .token ∧ p.text.head? = some '#'

instance : DecidablePred IsPrivate :=
  fun p => inferInstanceAs (Decidable (p.goal = .token ∧ p.text.head? = some '#'))

def ranged (offset : Nat) : List Piece → List (Piece × Span)
  | [] => []
  | p :: ps =>
    let start := offset + byteLength p.gap
    (p, ⟨start, start + byteLength p.text⟩) :: ranged (start + byteLength p.text) ps

theorem map_fst_ranged (offset : Nat) (ps : List Piece) : (ranged offset ps).map Prod.fst = ps := by
  induction ps generalizing offset with
  | nil => rfl
  | cons p ps ih => rw [ranged, List.map_cons, ih]

theorem mem_ranged {offset : Nat} {ps : List Piece} {p : Piece} {span : Span}
    (mem : (p, span) ∈ ranged offset ps) : ∃ before more, ps = before ++ p :: more ∧
      span.start = offset + byteLength (spell p.gap before) ∧
      span.stop = span.start + byteLength p.text := by
  induction ps generalizing offset with
  | nil => cases mem
  | cons q ps ih =>
    rcases List.mem_cons.1 mem with same | mem
    · obtain ⟨rfl, rfl⟩ := Prod.mk.inj same
      exact ⟨[], ps, rfl, rfl, rfl⟩
    · obtain ⟨before, more, rfl, start, stop⟩ := ih mem
      refine ⟨q :: before, more, rfl, ?_, stop⟩
      rw [start, spell, byteLength_append, byteLength_append]
      omega

variable {text : List Char} (layout : Layout text)

def rangedIn : List (Piece × Span) := ranged (byteLength layout.line) layout.pieces

/-- The private names of a tree have the ranges of the private names among the pieces of a text. -/
structure Matched (root : Node) : Prop where
  listed : ∀ span, (∃ p, (p, span) ∈ rangedIn layout ∧ IsPrivate p) ↔
    ∃ place name, NamedAt root place name span
  apart : ∀ place name span place' name' span', NamedAt root place name span →
    NamedAt root place' name' span' → span.start = span'.start → place = place'

variable {layout}

theorem exists_word {p : Piece} {rest : List Char} (own : IsPrivate p)
    (read : p.goal.rest? (p.text ++ rest) = some rest) :
    ∃ word, p.text = '#' :: word ∧ '#' ∉ word := by
  obtain ⟨goal, head⟩ := own
  obtain ⟨w, text⟩ := List.head?_eq_some_iff.1 head
  rw [goal, text] at read
  obtain ⟨lexeme, found, rfl⟩ := Option.map_eq_some_iff.1 read
  obtain ⟨v, _, _, whole, -, unmarked, -⟩ := wordLexeme_text
    (show wordLexeme (fun text _ => .privateWord text) (w ++ lexeme.rest) (0 + 1) = _ from found)
  obtain rfl := List.append_cancel_right whole
  exact ⟨w, text, unmarked⟩

theorem isToken_of_mem {p : Piece} {span : Span} (mem : (p, span) ∈ rangedIn layout)
    (own : IsPrivate p) : IsToken text span := by
  obtain ⟨before, more, cut, start, stop⟩ := mem_ranged mem
  obtain ⟨rest, whole, read⟩ := layout.exists_read cut
  obtain ⟨word, named, unmarked⟩ := exists_word own read
  rw [named] at whole stop
  refine ⟨layout.line ++ spell p.gap before, word, rest, whole, unmarked, ?_⟩
  rw [byteLength_append, ← start, ← stop]

theorem Matched.tokened {root : Node} (matched : Matched layout root) : Tokened text root where
  token := by
    intro place name span named
    obtain ⟨p, mem, own⟩ := (matched.listed span).2 ⟨place, name, named⟩
    exact isToken_of_mem mem own
  apart := matched.apart

/-! ## Parts of a converted script -/

def putAt? (uses : List Use) (span : Span) : Option (Bool × Nat) :=
  uses.findSome? fun use => if use.span = span then use.number.map (use.quoted, ·) else none

def partAt (uses : List Use) (x : Piece × Span) : Part :=
  match putAt? uses x.2 with
  | some (quoted, number) =>
    if IsPrivate x.1 then .name x.1.gap x.1.text quoted number else .piece x.1
  | none => .piece x.1

theorem partAt_cases (uses : List Use) (x : Piece × Span) :
    (partAt uses x = .piece x.1 ∧ (IsPrivate x.1 → putAt? uses x.2 = none)) ∨
      ∃ quoted number, IsPrivate x.1 ∧ putAt? uses x.2 = some (quoted, number) ∧
        partAt uses x = .name x.1.gap x.1.text quoted number := by
  unfold partAt
  split
  next quoted number put =>
    by_cases own : IsPrivate x.1
    · exact .inr ⟨quoted, number, own, put, if_pos own⟩
    · exact .inl ⟨if_neg own, fun own' => absurd own' own⟩
  next put => exact .inl ⟨rfl, fun _ => put⟩

theorem old_partAt (uses : List Use) (x : Piece × Span) : (partAt uses x).old = x.1 := by
  rcases partAt_cases uses x with ⟨same, -⟩ | ⟨quoted, number, own, -, same⟩
  · rw [same]
    rfl
  · rw [same, Part.old, ← own.1]

theorem sound_partAt (uses : List Use) (x : Piece × Span) : (partAt uses x).Sound := by
  rcases partAt_cases uses x with ⟨same, -⟩ | ⟨quoted, number, own, -, same⟩
  · rw [same]
    trivial
  · rw [same]
    exact own.2

theorem sound_partsAt (uses : List Use) (xs : List (Piece × Span)) :
    ∀ part ∈ xs.map (partAt uses), part.Sound := by
  intro part mem
  obtain ⟨x, -, rfl⟩ := List.mem_map.1 mem
  exact sound_partAt uses x

theorem map_old_partsAt (uses : List Use) (xs : List (Piece × Span)) :
    (xs.map (partAt uses)).map Part.old = xs.map Prod.fst := by
  rw [List.map_map]
  exact List.map_congr_left fun x _ => old_partAt uses x

def partsIn (program : Program) (layout : Layout text) : List Part :=
  (rangedIn layout).map (partAt (resolve program).uses)

theorem map_old_partsIn (program : Program) (layout : Layout text) :
    (partsIn program layout).map Part.old = layout.pieces := by
  rw [partsIn, map_old_partsAt, rangedIn, map_fst_ranged]

theorem putAt?_eq_some {program : Program} {quoted : Bool} {number : Nat} {span : Span}
    (h : putAt? (resolve program).uses span = some (quoted, number)) :
    ∃ place use, (place, use) ∈ foundIn program ∧ use.span = span ∧ use.quoted = quoted ∧
      use.number = some number := by
  obtain ⟨use, mem, put⟩ := List.exists_of_findSome?_eq_some h
  rw [← uses_resolve] at mem
  obtain ⟨⟨place, _⟩, found, rfl⟩ := List.mem_map.1 mem
  split at put
  · obtain ⟨n, own, same⟩ := Option.map_eq_some_iff.1 put
    obtain ⟨rfl, rfl⟩ := Prod.mk.inj same
    exact ⟨place, _, found, ‹_›, rfl, own⟩
  · cases put

variable {program : Program}

theorem putAt?_of_found (matched : Matched layout program.root) {place : Place} {use : Use}
    {number : Nat} (found : (place, use) ∈ foundIn program) (own : use.number = some number) :
    putAt? (resolve program).uses use.span = some (use.quoted, number) := by
  cases put : putAt? (resolve program).uses use.span with
  | none =>
    have mem : use ∈ (resolve program).uses := uses_resolve program ▸ List.mem_map_of_mem found
    have none := List.findSome?_eq_none_iff.1 put use mem
    rw [if_pos rfl, own] at none
    cases none
  | some pair =>
    obtain ⟨place', use', found', span, quoted, number'⟩ := putAt?_eq_some put
    obtain rfl : place' = place :=
      matched.apart _ _ _ _ _ _ (mem_foundIn.1 found').1 (mem_foundIn.1 found).1
        (congrArg Span.start span)
    obtain rfl : use' = use :=
      (Prod.mk.inj (List.inj_on_of_nodup_map (foundIn_binds program).once found' found rfl)).2
    rw [own] at number'
    rw [quoted, Option.some.inj number']

/-! ## The edits of a conversion -/

def Part.edit? (span : Span) : Part → Option Edit
  | .piece _ => none
  | .name _ _ quoted number => some ⟨span.start, span.stop, newName quoted number⟩

theorem editsAt_ranged (uses : List Use) (offset : Nat) (pending : List Char) (ps : List Piece) :
    editsAt offset (Portion.patches pending
        (((ranged (offset + byteLength pending) ps).map (partAt uses)).flatMap Part.portions)) =
      (ranged (offset + byteLength pending) ps).filterMap fun x => (partAt uses x).edit? x.2 := by
  induction ps generalizing offset pending with
  | nil => rfl
  | cons p ps ih =>
    rw [ranged, List.map_cons, List.flatMap_cons, List.filterMap_cons]
    rcases partAt_cases uses (p, ⟨offset + byteLength pending + byteLength p.gap,
      offset + byteLength pending + byteLength p.gap + byteLength p.text⟩) with
      ⟨same, -⟩ | ⟨quoted, number, -, -, same⟩
    · have further := ih offset (pending ++ p.gap ++ p.text)
      simp only [byteLength_append, ← Nat.add_assoc] at further
      simp only [same, Part.portions, Part.edit?, List.cons_append, List.nil_append,
        Portion.patches]
      exact further
    · have further := ih (offset + byteLength (pending ++ p.gap) + byteLength p.text) []
      simp only [byteLength_append, byteLength, Nat.add_zero, ← Nat.add_assoc] at further
      simp only [same, Part.portions, Part.edit?, List.cons_append, List.nil_append,
        Portion.patches, editsAt, String.ofList_toList, byteLength_append, ← Nat.add_assoc]
      rw [further]
      rfl

theorem removed_head {parts : List Part} (sound : ∀ part ∈ parts, part.Sound)
    {line : List Char} {p : Patch}
    (mem : p ∈ Portion.patches line (parts.flatMap Part.portions)) : p.removed.head? = some '#' := by
  obtain ⟨part, inside, changed⟩ := List.mem_flatMap.1 (Portion.mem_patches mem)
  cases part with
  | piece q => simp [Part.portions] at changed
  | name gap text quoted number =>
    simp only [Part.portions, List.mem_cons, reduceCtorEq, List.not_mem_nil, false_or, or_false,
      Portion.changed.injEq] at changed
    rw [changed.1]
    exact sound _ inside

theorem removed_ne_nil_of_sound {parts : List Part} (sound : ∀ part ∈ parts, part.Sound)
    (line : List Char) :
    ∀ p ∈ Portion.patches line (parts.flatMap Part.portions), p.removed ≠ [] := by
  intro p mem empty
  have head := removed_head sound mem
  rw [empty] at head
  cases head

theorem spell_portions {side : Portion → List Char} {piece : Part → Piece}
    (each : ∀ part : Part, part.portions.flatMap side = (piece part).gap ++ (piece part).text)
    (last : List Char) (parts : List Part) :
    (parts.flatMap Part.portions).flatMap side ++ last = spell last (parts.map piece) := by
  induction parts with
  | nil => rfl
  | cons part parts ih =>
    rw [List.flatMap_cons, List.flatMap_append, List.append_assoc, ih, each, List.append_assoc,
      List.map_cons, spell]

theorem old_portions (part : Part) :
    part.portions.flatMap Portion.old = part.old.gap ++ part.old.text := by
  cases part <;> simp [Part.portions, Portion.old, Part.old]

theorem new_portions (part : Part) :
    part.portions.flatMap Portion.new = part.new.gap ++ part.new.text := by
  cases part <;> simp [Part.portions, Portion.new, Part.new]

theorem nodup_editsOf {code : String} (tokened : Tokened code.toList program.root) :
    (editsOf code (resolve program)).Nodup := by
  have related := forall₂_renames tokened
  refine (pairwise_of_forall₂ related nodup_numbered fun _ _ _ _ =>
    clear_of_renames tokened).imp_of_mem ?_
  rintro a b ha - clear rfl
  obtain ⟨place, -, renames⟩ := exists_of_mem_right related ha
  have positive := (fits_of_renames tokened renames).start_lt_stop
  omega

theorem editsOf_perm {code : String} {layout : Layout code.toList}
    (matched : Matched layout program.root) : (editsOf code (resolve program)).Perm (editsAt 0
      (Portion.patches layout.line ((partsIn program layout).flatMap Part.portions))) := by
  have listed := editsAt_ranged (resolve program).uses 0 layout.line layout.pieces
  rw [Nat.zero_add] at listed
  have ascending := editsAt_pairwise 0 (removed_ne_nil_of_sound
    (sound_partsAt (resolve program).uses (rangedIn layout)) layout.line)
  have distinct : (editsAt 0 (Portion.patches layout.line
      ((partsIn program layout).flatMap Part.portions))).Nodup :=
    ascending.imp fun less same => absurd (congrArg Edit.start same) (Nat.ne_of_lt less)
  apply (List.perm_ext_iff_of_nodup (nodup_editsOf matched.tokened) distinct).2
  intro edit
  rw [partsIn, rangedIn, listed, mem_editsOf, List.mem_filterMap]
  constructor
  · rintro ⟨place, use, found, own⟩
    have named := (mem_foundIn.1 found).1
    rw [edit?_of_token (matched.tokened.token _ _ _ named)] at own
    obtain ⟨number, hn, rfl⟩ := Option.map_eq_some_iff.1 own
    obtain ⟨p, mem, isPrivate⟩ := (matched.listed _).2 ⟨_, _, named⟩
    refine ⟨(p, use.span), mem, ?_⟩
    rw [partAt, putAt?_of_found matched found hn]
    simp [isPrivate, Part.edit?]
  · rintro ⟨⟨p, span⟩, mem, own⟩
    rcases partAt_cases (resolve program).uses (p, span) with ⟨same, -⟩ | ⟨q, n, -, put, same⟩
    · rw [same] at own
      cases own
    · obtain ⟨place, use, found, rfl, rfl, number⟩ := putAt?_eq_some put
      rw [same] at own
      refine ⟨place, use, found, ?_⟩
      rw [edit?_of_token (matched.tokened.token _ _ _ (mem_foundIn.1 found).1), number]
      exact own

/-- A script that parses is converted, and the new text has the new names in the places of the
private names. -/
theorem convert_eq_ok {dialect : Dialect} {code : String} {layout : Layout code.toList}
    (parsed : Program.parse? dialect code.toList = some program)
    (matched : Matched layout program.root) :
    ∃ conversion, convert dialect code = .ok conversion ∧ conversion.code.toList =
      layout.line ++ spell layout.last ((partsIn program layout).map Part.new) := by
  obtain ⟨conversion, converted, applied, -⟩ := exists_conversion parsed matched.tokened
  have whole := Portion.joined_patches layout.line layout.last
    ((partsIn program layout).flatMap Part.portions)
  rw [spell_portions old_portions, map_old_partsIn, ← layout.whole] at whole
  rw [applyAll?_of_perm whole.symm (editsOf_perm matched)
    (removed_ne_nil_of_sound (sound_partsAt _ _) layout.line)] at applied
  refine ⟨conversion, converted, ?_⟩
  rw [← Option.some.inj applied, String.toList_ofList, substituted_patches,
    spell_portions new_portions]

end BundlePrep.PrivateName
