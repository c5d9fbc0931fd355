import BundlePrep.Proofs.PrivateName.Renaming
import BundlePrep.Proofs.Script.Pieces

/-!
# Names that a script has already

New names are counted from the first short name on, and no script is searched for them. A script
that has one of them already, as an identifier or as the name of a property, gets a second thing of
that name: a private member and a public one of the same class become one member.
-/

set_option autoImplicit false

namespace BundlePrep.Script

/-- A name occurs in pieces: an item spells it, or it is the value of a quoted text that is the name
of a property. Which quoted texts are is for the grammar to say. -/
def Occurs (keys : Nat → Prop) (pieces : List Piece) (name : String) : Prop :=
  ∃ i piece, pieces[i]? = some piece ∧
    (piece.item.word? = some name ∨ keys i ∧ piece.item.value? = some name)

theorem mem_of_occurs {keys : Nat → Prop} {pieces : List Piece} {name : String}
    (h : Occurs keys pieces name) :
    name ∈ pieces.filterMap (·.item.word?) ++ pieces.filterMap (·.item.value?) := by
  obtain ⟨i, piece, at_, word | ⟨-, value⟩⟩ := h
  · exact List.mem_append_left _ (List.mem_filterMap.2 ⟨piece, List.mem_of_getElem? at_, word⟩)
  · exact List.mem_append_right _ (List.mem_filterMap.2 ⟨piece, List.mem_of_getElem? at_, value⟩)

end BundlePrep.Script

namespace BundlePrep.PrivateName

open BundlePrep.Script BundlePrep.Text

theorem exists_edits {dialect : Dialect} {code : String} {conversion : Conversion}
    (converted : convert dialect code = .ok conversion) :
    ∃ edits, Edit.applyAll? code edits = some conversion.code ∧ edits.length = conversion.edits ∧
      (∀ edit ∈ edits, ∃ name ∈ shortNames conversion.names,
        edit.content = name ∨ edit.content = "'" ++ name ++ "'") ∧
      ∀ name ∈ shortNames conversion.names, ∃ edit ∈ edits,
        edit.content = name ∨ edit.content = "'" ++ name ++ "'" := by
  rcases convert_cases converted with ⟨rfl, -⟩ | ⟨program, out, -, -, -, applied, rfl⟩
  · refine ⟨[], ?_, rfl, by simp, by simp [Conversion.unchanged, shortNames]⟩
    rw [Edit.applyAll?, Edit.sorted, List.mergeSort_nil, Edit.applySorted?_nil]
    rfl
  have handedOut := @handedOut_iff program code
  rw [← next_resolve] at handedOut
  refine ⟨editsOf code (resolve program), applied, rfl, ?_, ?_⟩
  · intro edit mem
    obtain ⟨_, -, _, _, _, quoted, -, -, content⟩ := exists_of_mem_right (forall₂_gives code) mem
    refine ⟨_, List.mem_map_of_mem (List.mem_range.2 ((handedOut _).2 ⟨edit, mem, quoted, content⟩)),
      ?_⟩
    cases quoted with
    | false => exact .inl content
    | true => exact .inr content
  · intro name mem
    obtain ⟨number, less, rfl⟩ := List.mem_map.1 mem
    obtain ⟨edit, mem, quoted, content⟩ := (handedOut number).1 (List.mem_range.1 less)
    refine ⟨edit, mem, ?_⟩
    cases quoted with
    | false => exact .inl content
    | true => exact .inr content

/-- The first short names miss a set of names exactly if all words over the letters that it holds
behind the sigil are counted later. -/
theorem shortNames_miss_iff (count : Nat) (known : String → Prop) :
    (∀ name ∈ shortNames count, ¬known name) ↔
      ∀ w : List Char, w ≠ [] → (∀ c ∈ w, c.isAlpha = true) → known (String.ofList ('$' :: w)) →
        count < countOf w.reverse := by
  constructor
  · intro fresh w nonempty letters occurs
    by_contra early
    have positive := countOf_pos (w := w.reverse) (by simpa using nonempty)
    refine fresh _ (List.mem_map_of_mem (a := countOf w.reverse - 1) (List.mem_range.2 ?_)) ?_
    · omega
    · rwa [shortName_countOf nonempty letters]
  · intro later name mem occurs
    obtain ⟨number, less, rfl⟩ := List.mem_map.1 mem
    have letters : ∀ c ∈ (shortLetters number).reverse, c.isAlpha = true := fun c inside =>
      isAlpha_shortLetters number c (List.mem_reverse.1 inside)
    have nonempty : (shortLetters number).reverse ≠ [] := by simpa using shortLetters_ne_nil number
    have counted := later _ nonempty letters occurs
    rw [List.reverse_reverse, countOf_shortLetters] at counted
    exact absurd (List.mem_range.1 less) (by omega)

/-- The names that a conversion puts into a script are the first short names, and none of them
occurs there already exactly if all words over the letters that occur there behind the sigil are
counted later. -/
theorem convert_fresh_iff {dialect : Dialect} {code : String} {conversion : Conversion}
    (converted : convert dialect code = .ok conversion) (layout : Layout code.toList)
    (keys : Nat → Prop) :
    (∃ edits, Edit.applyAll? code edits = some conversion.code ∧ edits.length = conversion.edits ∧
      (∀ edit ∈ edits, ∃ name ∈ shortNames conversion.names,
        edit.content = name ∨ edit.content = "'" ++ name ++ "'") ∧
      ∀ name ∈ shortNames conversion.names, ∃ edit ∈ edits,
        edit.content = name ∨ edit.content = "'" ++ name ++ "'") ∧
    ((∀ name ∈ shortNames conversion.names, ¬Occurs keys layout.pieces name) ↔
      ∀ w : List Char, w ≠ [] → (∀ c ∈ w, c.isAlpha = true) →
        Occurs keys layout.pieces (String.ofList ('$' :: w)) →
          conversion.names < countOf w.reverse) :=
  ⟨exists_edits converted, shortNames_miss_iff conversion.names (Occurs keys layout.pieces)⟩

/-! ## A public member beside a private one -/

def beside (name : String) : String := "class A \x7b " ++ name ++ " = 1; #x = 2; \x7d"

def besideLayout (name : String) : List Piece :=
  [.token "" "class", .token " " "A", .token " " "\x7b", .token " " name, .token " " "=",
    .token " " "1", .token "" ";", .token " " "#x", .token " " "=", .token " " "2", .token "" ";",
    .token " " "\x7d"]

theorem convert_fresh_later :
    ∃ layout : Layout (beside "$b").toList, layout.pieces = besideLayout "$b" ∧
      convert ⟨false, false⟩ (beside "$b") = .ok ⟨"class A \x7b $b = 1; $a = 2; \x7d", 1, 1, 1⟩ ∧
      ∀ name ∈ shortNames 1, ¬Occurs (fun _ => True) (besideLayout "$b") name := by
  have converted : convert ⟨false, false⟩ (beside "$b") =
      .ok ⟨"class A \x7b $b = 1; $a = 2; \x7d", 1, 1, 1⟩ := by decide +kernel
  let layout : Layout (beside "$b").toList :=
    ⟨[], besideLayout "$b", [], by decide +kernel, by decide +kernel, by decide +kernel⟩
  have names : (besideLayout "$b").filterMap (·.item.word?) ++
      (besideLayout "$b").filterMap (·.item.value?) = ["class", "A", "$b"] := by decide +kernel
  refine ⟨layout, rfl, converted, (convert_fresh_iff converted layout _).2.2 ?_⟩
  intro w nonempty letters occurs
  have known := mem_of_occurs occurs
  rw [names] at known
  have single : w = ['b'] := by simpa [← String.toList_inj] using known
  subst single
  decide +kernel

/-- A private member gets the name of a public one of its own class. -/
theorem convert_merges_members :
    ∃ layout : Layout (beside "$a").toList, layout.pieces = besideLayout "$a" ∧
      convert ⟨false, false⟩ (beside "$a") = .ok ⟨"class A \x7b $a = 1; $a = 2; \x7d", 1, 1, 1⟩ ∧
      "$a" ∈ shortNames 1 ∧ Occurs (fun _ => False) layout.pieces "$a" := by
  refine ⟨⟨[], besideLayout "$a", [], by decide +kernel, by decide +kernel, by decide +kernel⟩, rfl,
    by decide +kernel, by decide +kernel, 3, .token " " "$a", rfl, .inl ?_⟩
  decide +kernel

end BundlePrep.PrivateName
