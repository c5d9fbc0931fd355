import BundlePrep.Proofs.PrivateName.Renaming
import BundlePrep.Proofs.Script.Marked
import BundlePrep.Proofs.Text.ByteOrder

/-!
# Private names behind a mark of the byte order

The ranges of private names are counted without the mark, but the edits cut the text with it. Every
edit falls three bytes short of its private name, so that a conversion that edits anything comes out
different, unless the new name happens to stand there already.
-/

set_option autoImplicit false

namespace BundlePrep.PrivateName

open BundlePrep.Script BundlePrep.Text

/-- A conversion treats a script with a mark like the one without it. -/
def Transparent (dialect : Dialect) (code : String) : Prop :=
  Agree (fun plain withMark => withMark = { plain with code := marked plain.code })
    (convert dialect code) (convert dialect (marked code))

/-- The script has errors, or no private name that is bound. -/
def Untouched (dialect : Dialect) (code : String) : Prop :=
  convert dialect code = .error .malformed ∨
    ∃ conversion, convert dialect code = .ok conversion ∧ conversion.edits = 0

/-- The new name of an edit begins three bytes in front of its place, with what stands there. -/
def Ahead (code : String) (edit : Edit) : Prop :=
  ∃ front gap rest, (marked code).toList = front ++ (gap ++ rest) ∧
    byteLength front = edit.start ∧ byteLength gap = 3 ∧
      edit.content.toList <+: gap ++ edit.content.toList

theorem editsOf_eq_nil_iff {code : String} {found : Found} :
    editsOf code found = [] ↔ ∀ use ∈ found.uses, use.number = none := by
  simp [editsOf, Use.edit?, List.filterMap_eq_nil_iff]

theorem transparent_of_untouched {dialect : Dialect} {code : String}
    (plain : code.toList.head? ≠ some '\ufeff') (untouched : Untouched dialect code) :
    Transparent dialect code := by
  have parses := parse?_marked dialect plain
  have signs := contains_marked (c := '#') (by decide) code
  unfold Transparent Untouched at *
  unfold convert at *
  rw [signs, parses]
  cases sign : code.toList.contains '#' with
  | false => rfl
  | true =>
    rw [sign] at untouched
    cases parsed : Program.parse? dialect code.toList with
    | none => trivial
    | some program =>
      cases edits : editsOf code (resolve program) with
      | nil =>
        have none : editsOf (marked code) (resolve program) = [] :=
          editsOf_eq_nil_iff.2 (editsOf_eq_nil_iff.1 edits)
        simp only [edits, none]
        rfl
      | cons e es =>
        simp only [parsed, edits, Bool.not_true, Bool.false_eq_true, if_false] at untouched
        cases applied : Edit.applyAll? code (e :: es) <;> simp [applied] at untouched

/-- A private name that is edited has its number sign in front of its place, or is edited where its
range begins. -/
theorem start_cases {bytes : ByteArray} {use : Use} {edit : Edit}
    (h : use.edit? bytes = some edit) :
    bytes[edit.start]? = some 35 ∨ edit.start = use.span.start := by
  obtain ⟨number, -, rfl⟩ := Option.map_eq_some_iff.1 h
  simp only [Use.range]
  split
  next moved =>
    simp only [Bool.and_eq_true, beq_iff_eq] at moved
    exact .inl moved.2
  next => exact .inr rfl

theorem start_le {bytes : ByteArray} {use : Use} {edit : Edit} (h : use.edit? bytes = some edit) :
    edit.start ≤ use.span.start := by
  obtain ⟨number, -, rfl⟩ := Option.map_eq_some_iff.1 h
  simp only [Use.range]
  split
  · exact Nat.sub_le _ _
  · exact Nat.le_refl _

theorem eq_sign_of_encoded {c : Char} {more : List UInt8}
    (h : (String.utf8EncodeChar c ++ more)[0]? = some 35) : c = '#' := by
  obtain ⟨b, bs, encoded⟩ := List.exists_cons_of_ne_nil (utf8EncodeChar_ne_nil c)
  obtain rfl : b = 35 := by simpa [encoded] using h
  exact @eq_of_mem_encode c 35 (by simp [encoded]) (by decide)

theorem eq_sign_of_byte {text : String} {front behind : List Char} {c : Char}
    (whole : text.toList = front ++ c :: behind)
    (sign : text.toUTF8[byteLength front]? = some 35) : c = '#' := by
  rw [getElem?_toUTF8, bytes_eq, whole, List.flatMap_append, List.flatMap_cons,
    List.getElem?_append_right (by rw [length_encoded]), length_encoded, Nat.sub_self] at sign
  exact eq_sign_of_encoded sign

theorem exists_edit {bytes : ByteArray} {use : Use} {edit : Edit} (h : use.edit? bytes = some edit)
    (other : ByteArray) :
    ∃ edit', use.edit? other = some edit' ∧ edit'.content = edit.content := by
  obtain ⟨number, hn, rfl⟩ := Option.map_eq_some_iff.1 h
  refine ⟨⟨(use.range other).1, (use.range other).2, use.replacement number⟩, ?_, rfl⟩
  rw [Use.edit?, hn]
  rfl

theorem start_of_token {code : String} {use : Use} {edit : Edit}
    (token : IsToken code.toList use.span) (h : use.edit? code.toUTF8 = some edit) :
    edit.start = use.span.start := by
  obtain ⟨number, -, rfl⟩ := Option.map_eq_some_iff.1 h
  rw [range_of_token token]

theorem exists_newName {bytes : ByteArray} {use : Use} {edit : Edit}
    (h : use.edit? bytes = some edit) : ∃ number, edit.content = newName use.quoted number := by
  obtain ⟨number, -, rfl⟩ := Option.map_eq_some_iff.1 h
  exact ⟨number, rfl⟩

section

variable {dialect : Dialect} {code : String} {program : Program}

/-- A conversion that edits something and does not see the mark applies the edits of the script with
the mark. -/
theorem applied_of_transparent (plain : code.toList.head? ≠ some '\ufeff')
    (parsed : Program.parse? dialect code.toList = some program) {conversion : Conversion}
    (converted : convert dialect code = .ok conversion) (edited : conversion.edits ≠ 0)
    (transparent : Transparent dialect code) :
    editsOf (marked code) (resolve program) ≠ [] ∧
      Edit.applyAll? (marked code) (editsOf (marked code) (resolve program)) =
        some (marked conversion.code) := by
  rw [Transparent, converted] at transparent
  cases convertedMarked : convert dialect (marked code) with
  | error _ =>
    rw [convertedMarked] at transparent
    exact transparent.elim
  | ok withMark =>
    rw [convertedMarked] at transparent
    obtain rfl : withMark = { conversion with code := marked conversion.code } := transparent
    rcases convert_cases convertedMarked with
      ⟨unchanged, -⟩ | ⟨other, out, -, parsed', nonempty, applied, same⟩
    · exact absurd (congrArg Conversion.edits unchanged) edited
    · rw [parse?_marked dialect plain, parsed] at parsed'
      obtain rfl := Option.some.inj parsed'
      obtain rfl : marked conversion.code = out := congrArg Conversion.code same
      exact ⟨nonempty, applied⟩

/-- With the mark, the first edit begins no later than without it, and at a number sign or where the
range of its private name begins. -/
theorem first_cases (tokened : Tokened code.toList program.root) {e e' : Edit}
    (he : e ∈ editsOf code (resolve program)) (he' : e' ∈ editsOf (marked code) (resolve program))
    (first : ∀ other ∈ editsOf code (resolve program), e.start ≤ other.start)
    (first' : ∀ other ∈ editsOf (marked code) (resolve program), e'.start ≤ other.start) :
    e'.start ≤ e.start ∧ ((marked code).toUTF8[e'.start]? = some 35 ∨
      e'.start = e.start ∧ e'.content = e.content) := by
  obtain ⟨place, use, mem, own⟩ := mem_editsOf.1 he
  obtain ⟨place', use', mem', own'⟩ := mem_editsOf.1 he'
  have token (place : Place) (use : Use) (mem : (place, use) ∈ foundIn program) :=
    tokened.token _ _ _ (mem_foundIn.1 mem).1
  have start := start_of_token (token place use mem) own
  obtain ⟨moved, edited, -⟩ := exists_edit own (marked code).toUTF8
  have early : e'.start ≤ e.start :=
    Nat.le_trans (first' _ (mem_editsOf.2 ⟨_, _, mem, edited⟩)) (start ▸ start_le edited)
  obtain ⟨back, edited', content⟩ := exists_edit own' code.toUTF8
  have late : e.start ≤ use'.span.start :=
    start_of_token (token place' use' mem') edited' ▸ first _ (mem_editsOf.2 ⟨_, _, mem', edited'⟩)
  refine ⟨early, (start_cases own').imp_right fun unmoved => ?_⟩
  have same : place = place' := tokened.apart _ _ _ _ _ _ (mem_foundIn.1 mem).1
    (mem_foundIn.1 mem').1 (by omega)
  have pair := List.inj_on_of_nodup_map (foundIn_binds program).once mem mem' same
  obtain ⟨rfl, rfl⟩ := Prod.mk.inj pair
  rw [own] at edited'
  exact ⟨by omega, by rw [← content, Option.some.inj edited']⟩

/-- Where each private name stands on a token of its own, a conversion that edits any of them and
does not see the mark puts a new name where it stands already. -/
theorem ahead_of_transparent (plain : code.toList.head? ≠ some '\ufeff')
    (parsed : Program.parse? dialect code.toList = some program)
    (tokened : Tokened code.toList program.root) (transparent : Transparent dialect code) :
    Untouched dialect code ∨ ∃ edit ∈ editsOf code (resolve program), Ahead code edit := by
  obtain ⟨conversion, converted, applied, -, counted⟩ := exists_conversion parsed tokened
  by_cases edited : conversion.edits = 0
  · exact .inl (.inr ⟨conversion, converted, edited⟩)
  right
  obtain ⟨nonempty', applied'⟩ :=
    applied_of_transparent plain parsed converted edited transparent
  have nonempty : editsOf code (resolve program) ≠ [] := fun none =>
    nonempty' (editsOf_eq_nil_iff.2 (editsOf_eq_nil_iff.1 none))
  obtain ⟨e, he, first, kept, rest, behind, whole, size, text⟩ := exists_first nonempty applied
  obtain ⟨e', he', first', kept', rest', behind', whole', size', text'⟩ :=
    exists_first nonempty' applied'
  obtain ⟨early, cases'⟩ := first_cases tokened he he' first first'
  have inside : e.start ≤ byteLength code.toList := by
    obtain ⟨place, -, renames⟩ := exists_of_mem_right (forall₂_renames tokened) he
    obtain ⟨before, part, after, cut, -, start, -⟩ := fits_of_renames tokened renames
    rw [start, cut, byteLength_append]
    exact Nat.le_add_right _ _
  have insideMarked : e'.start ≤ byteLength (marked code).toList := by
    rw [toList_marked, byteLength]
    omega
  rw [Nat.min_eq_left inside] at size
  rw [Nat.min_eq_left insideMarked] at size'
  obtain ⟨gap, front, rfl, three⟩ := exists_three whole whole' (by omega)
  have both : e'.content.toList ++ behind' = gap ++ (e.content.toList ++ behind) := by
    rw [toList_marked, text, ← List.cons_append, front, List.append_assoc] at text'
    exact (List.append_cancel_left text').symm
  obtain ⟨c, gap, rfl⟩ : ∃ c tail, gap = c :: tail := by
    cases gap with
    | nil =>
      rw [byteLength] at three
      omega
    | cons c tail => exact ⟨c, tail, rfl⟩
  rcases cases' with sign | ⟨start, content⟩
  · -- A new name does not begin with a number sign.
    obtain rfl := eq_sign_of_byte whole' (size' ▸ sign)
    obtain ⟨_, use', -, own'⟩ := mem_editsOf.1 he'
    obtain ⟨number, named⟩ := exists_newName own'
    have first := congrArg List.head? both
    rw [named, List.head?_append, head_newName] at first
    cases quoted : use'.quoted with
    | true => simp [quoted] at first
    | false => simp [quoted] at first
  · rw [content] at both
    refine ⟨e, he, kept', c :: gap, rest, whole', by omega, by omega, ?_⟩
    refine List.prefix_of_prefix_length_le ⟨_, both⟩ ⟨behind, by simp⟩ ?_
    simp only [List.length_append]
    omega

end

end BundlePrep.PrivateName
