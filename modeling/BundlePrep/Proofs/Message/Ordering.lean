import BundlePrep.Proofs.Message.Collecting
import BundlePrep.Proofs.Text.ByteOrder
import Mathlib.Data.Set.Function
import Mathlib.Order.Compare

/-!
# The order of a catalog

The entries of a catalog stand in the order of the bytes of module, key and placeholder. Entries with
distinct placeholders have no ties, so their catalog does not depend on the order in which they come,
and each placeholder has the number of its entry.
-/

set_option autoImplicit false

namespace BundlePrep.Message

open BundlePrep.Text

/-- What an entry is ordered by. -/
def Entry.sortKey (e : Entry) : List (List UInt8) :=
  [bytes e.moduleId, bytes e.key.primary, bytes e.placeholder]

namespace Entry

theorem compare_eq_lt {a b : Entry} : a.compare b = .lt ↔ a.sortKey < b.sortKey := by
  simp only [compare, sortKey, Ordering.then_eq_lt, Ordering.then_eq_eq, compare_lt_iff_lt,
    compare_eq_iff_eq, List.cons_lt_cons_iff, bytes_lt_iff, bytes_inj, List.lt_irrefl, and_false,
    or_false]
  tauto

theorem placeholder_of_compare {a b : Entry} (h : a.compare b = .eq) :
    a.placeholder = b.placeholder := by
  simp only [compare, Ordering.then_eq_eq, compare_eq_iff_eq] at h
  exact h.2

instance : Std.TransCmp compare := by
  show Std.TransCmp (compareLex (compareLex (compareOn moduleId) (compareOn (·.key.primary)))
    (compareOn placeholder))
  infer_instance

theorem isLE_total (a b : Entry) : ((a.compare b).isLE || (b.compare a).isLE) = true := by
  have swapped : b.compare a = (a.compare b).swap := Std.OrientedCmp.eq_swap
  rw [swapped]
  cases a.compare b <;> rfl

end Entry

/-! ## Sorted entries -/

/-- Entries that stand in their order, without ties. -/
def Increasing (entries : List Entry) : Prop := entries.Pairwise fun a b => a.sortKey < b.sortKey

instance (entries : List Entry) : Decidable (Increasing entries) :=
  inferInstanceAs (Decidable (entries.Pairwise fun a b => a.sortKey < b.sortKey))

theorem Distinct.perm {xs ys : List Entry} (h : Distinct xs) (perm : ys.Perm xs) : Distinct ys :=
  (perm.map Entry.placeholder).nodup_iff.2 h

theorem increasing_ofEntries {entries : List Entry} (distinct : Distinct entries) :
    Increasing (Catalog.ofEntries entries).entries := by
  have ordered : (Catalog.ofEntries entries).entries.Pairwise fun a b => (a.compare b).isLE :=
    List.pairwise_mergeSort (fun _ _ _ => Std.TransCmp.isLE_trans) Entry.isLE_total entries
  have apart : (Catalog.ofEntries entries).entries.Pairwise fun a b =>
      a.placeholder ≠ b.placeholder :=
    List.pairwise_map.1 (distinct.perm (Catalog.ofEntries_perm entries))
  refine (ordered.and apart).imp fun {a b} ⟨notAfter, other⟩ => Entry.compare_eq_lt.1 ?_
  cases order : a.compare b with
  | lt => rfl
  | eq => exact absurd (Entry.placeholder_of_compare order) other
  | gt => rw [order] at notAfter; cases notAfter

theorem Increasing.eq_of_perm {xs ys : List Entry} (hx : Increasing xs) (hy : Increasing ys)
    (perm : xs.Perm ys) : xs = ys :=
  List.Perm.eq_of_pairwise
    (fun _ _ _ _ before behind => absurd behind (List.lt_asymm before)) hx hy perm

theorem ofEntries_of_perm {xs ys : List Entry} (distinct : Distinct ys) (perm : xs.Perm ys) :
    Catalog.ofEntries xs = Catalog.ofEntries ys := by
  have same := (increasing_ofEntries (distinct.perm perm)).eq_of_perm (increasing_ofEntries distinct)
    (((Catalog.ofEntries_perm xs).trans perm).trans (Catalog.ofEntries_perm ys).symm)
  exact congrArg Catalog.mk same

theorem ofEntries_eq {xs ys : List Entry} (increasing : Increasing ys) (distinct : Distinct ys)
    (perm : ys.Perm xs) : Catalog.ofEntries xs = ⟨ys⟩ := by
  rw [ofEntries_of_perm distinct perm.symm]
  exact congrArg Catalog.mk ((increasing_ofEntries distinct).eq_of_perm increasing
    (Catalog.ofEntries_perm ys))

theorem finalizes_addAll {entries : List Entry} {catalog : Catalog} :
    Finalizes (Collection.empty.addAll entries) catalog ↔
      catalog = Catalog.ofCollection (Collection.empty.addAll entries) := by
  constructor
  · rintro ⟨drained, perm, rfl⟩
    exact ofEntries_of_perm (Collection.distinct_addAll entries) perm
  · rintro rfl
    exact ⟨_, .refl _, rfl⟩

/-! ## Numbers -/

theorem mem_of_mem_ofPairs {pairs : List (String × Nat)} {pair : String × Nat}
    (h : pair ∈ Numbers.ofPairs pairs) : pair ∈ pairs := by
  rw [← List.mem_reverse, ← List.mem_mergeSort]
  rw [Numbers.ofPairs] at h
  exact mem_of_mem_eraseRepsBy h

theorem mem_of_number? {numbers : Numbers} {placeholder : String} {number : Nat}
    (h : numbers.number? placeholder = some number) : (placeholder, number) ∈ numbers := by
  obtain ⟨front, back, rfl, -⟩ := List.lookup_eq_some_iff.1 h
  exact List.mem_append_right _ (List.mem_cons_self ..)

theorem numbers_eq (catalog : Catalog) :
    catalog.numbers = .ofPairs (catalog.entries.map Entry.placeholder).zipIdx := by
  rw [Catalog.numbers, List.zipIdx_map]
  rfl

theorem number?_eq_some_iff {catalog : Catalog} (distinct : Distinct catalog.entries)
    {placeholder : String} {number : Nat} :
    catalog.numbers.number? placeholder = some number ↔
      ∃ e, catalog.entries[number]? = some e ∧ e.placeholder = placeholder := by
  have listed {n : Nat} : (placeholder, n) ∈ (catalog.entries.map Entry.placeholder).zipIdx ↔
      (catalog.entries.map Entry.placeholder)[n]? = some placeholder :=
    List.mem_zipIdx_iff_getElem?
  rw [← Option.map_eq_some_iff, ← List.getElem?_map, numbers_eq]
  constructor
  · exact fun found => listed.1 (mem_of_mem_ofPairs (mem_of_number? found))
  · intro place
    obtain ⟨other, found⟩ := number?_ofPairs (listed.2 place)
    have same := listed.1 (mem_of_mem_ofPairs (mem_of_number? found))
    have inside := (List.getElem?_eq_some_iff.1 same).1
    rw [← (List.getElem?_inj inside distinct).1 (same.trans place.symm)]
    exact found

/-! ## Catalogs of additions -/

theorem distinct_ofCollection (entries : List Entry) :
    Distinct (Catalog.ofCollection (Collection.empty.addAll entries)).entries :=
  (Collection.distinct_addAll entries).perm (Catalog.ofEntries_perm _)

theorem increasing_ofCollection (entries : List Entry) :
    Increasing (Catalog.ofCollection (Collection.empty.addAll entries)).entries :=
  increasing_ofEntries (Collection.distinct_addAll entries)

theorem mem_ofCollection {entries : List Entry} {e : Entry} :
    e ∈ (Catalog.ofCollection (Collection.empty.addAll entries)).entries ↔
      lastWith? entries e.placeholder = some e :=
  (Catalog.ofEntries_perm _).mem_iff.trans Collection.mem_addAll

theorem number?_ofCollection_iff {entries : List Entry} {placeholder : String} {number : Nat} :
    (Catalog.ofCollection (Collection.empty.addAll entries)).numbers.number? placeholder =
        some number ↔
      ∃ e, lastWith? entries placeholder = some e ∧
        (Catalog.ofCollection (Collection.empty.addAll entries)).entries[number]? = some e := by
  rw [number?_eq_some_iff (distinct_ofCollection entries)]
  refine exists_congr fun e => ?_
  constructor
  · rintro ⟨place, rfl⟩
    exact ⟨mem_ofCollection.1 (List.mem_of_getElem? place), place⟩
  · rintro ⟨last, place⟩
    exact ⟨place, placeholder_of_lastWith? last⟩

theorem exists_number {entries : List Entry} {placeholder : String} {e : Entry}
    (last : lastWith? entries placeholder = some e) :
    ∃ number,
      (Catalog.ofCollection (Collection.empty.addAll entries)).numbers.number? placeholder =
          some number ∧
        (Catalog.ofCollection (Collection.empty.addAll entries)).entries[number]? = some e := by
  obtain rfl := placeholder_of_lastWith? last
  obtain ⟨number, place⟩ := List.mem_iff_getElem?.1 (mem_ofCollection.2 last)
  exact ⟨number, number?_ofCollection_iff.2 ⟨e, last, place⟩, place⟩

theorem isSome_number?_iff {entries : List Entry} {placeholder : String} :
    ((Catalog.ofCollection (Collection.empty.addAll entries)).numbers.number? placeholder).isSome ↔
      ∃ e ∈ entries, e.placeholder = placeholder := by
  rw [Option.isSome_iff_exists]
  constructor
  · rintro ⟨number, found⟩
    obtain ⟨e, last, -⟩ := number?_ofCollection_iff.1 found
    exact ⟨e, mem_of_lastWith? last, placeholder_of_lastWith? last⟩
  · rintro ⟨entry, mem, rfl⟩
    obtain ⟨e, last⟩ := lastWith?_of_mem mem
    obtain ⟨number, found, -⟩ := exists_number last
    exact ⟨number, found⟩

theorem number?_bijOn (entries : List Entry) :
    Set.BijOn (Catalog.ofCollection (Collection.empty.addAll entries)).numbers.number?
      {placeholder | ∃ e ∈ entries, e.placeholder = placeholder}
      (some '' Set.Iio (Catalog.ofCollection (Collection.empty.addAll entries)).size) := by
  refine ⟨?_, ?_, ?_⟩
  · intro placeholder mem
    obtain ⟨number, found⟩ := Option.isSome_iff_exists.1 (isSome_number?_iff.2 mem)
    obtain ⟨e, -, place⟩ := number?_ofCollection_iff.1 found
    exact ⟨number, (List.getElem?_eq_some_iff.1 place).1, found.symm⟩
  · intro p mem q _ same
    obtain ⟨number, found⟩ := Option.isSome_iff_exists.1 (isSome_number?_iff.2 mem)
    obtain ⟨e, lastP, placeP⟩ := number?_ofCollection_iff.1 found
    obtain ⟨d, lastQ, placeQ⟩ := number?_ofCollection_iff.1 (same.symm.trans found)
    obtain rfl : e = d := Option.some.inj (placeP.symm.trans placeQ)
    rw [← placeholder_of_lastWith? lastP, ← placeholder_of_lastWith? lastQ]
  · rintro _ ⟨number, below, rfl⟩
    obtain ⟨e, place⟩ : ∃ e, (Catalog.ofCollection
        (Collection.empty.addAll entries)).entries[number]? = some e :=
      ⟨_, List.getElem?_eq_getElem below⟩
    have last := mem_ofCollection.1 (List.mem_of_getElem? place)
    exact ⟨e.placeholder, ⟨e, mem_of_lastWith? last, rfl⟩,
      number?_ofCollection_iff.2 ⟨e, last, place⟩⟩

/-- Whatever calls fill a collection and in whatever order its entries are taken, the placeholders
that were added and the numbers below the size of the catalog belong to each other, each number has
the message that was added last, and the entries stand in the order of their bytes. -/
theorem numbers_bijective {additions : List Addition} {catalog : Catalog}
    (finalized : Finalizes (Collection.ofAdditions additions) catalog) :
    (∀ placeholder, (catalog.numbers.number? placeholder).isSome ↔
        ∃ e ∈ added additions, e.placeholder = placeholder) ∧
      Set.BijOn catalog.numbers.number?
        {placeholder | ∃ e ∈ added additions, e.placeholder = placeholder}
        (some '' Set.Iio catalog.size) ∧
      (∀ placeholder e, lastWith? (added additions) placeholder = some e →
        ∃ number, catalog.numbers.number? placeholder = some number ∧
          catalog.messages[number]? = some e.message) ∧
      Increasing catalog.entries := by
  rw [Collection.ofAdditions_eq, finalizes_addAll] at finalized
  subst finalized
  refine ⟨fun _ => isSome_number?_iff, number?_bijOn _, ?_, increasing_ofCollection _⟩
  intro placeholder e last
  obtain ⟨number, found, place⟩ := exists_number last
  exact ⟨number, found, by rw [Catalog.messages, List.getElem?_map, place, Option.map_some]⟩

def renewed : List Addition :=
  [.one (.ofCall .blank "b" (.plain "k") "old"),
    .all [.ofCall .blank "a" (.plain "k") "x", .ofCall .blank "b" (.plain "k") "new"]]

def renewedCatalog : Catalog :=
  ⟨[.ofCall .blank "a" (.plain "k") "x", .ofCall .blank "b" (.plain "k") "new"]⟩

theorem numbers_bijective_renewed :
    Finalizes (Collection.ofAdditions renewed) renewedCatalog ∧
      Set.BijOn renewedCatalog.numbers.number?
        {placeholder | ∃ e ∈ added renewed, e.placeholder = placeholder} (some '' Set.Iio 2) ∧
      ∃ number, renewedCatalog.numbers.number? "%%NLS:b#k%%" = some number ∧
        renewedCatalog.messages[number]? = some "new" := by
  have drained : renewedCatalog.entries.Perm (Collection.ofAdditions renewed).entries := by
    decide +kernel
  have finalized : Finalizes (Collection.ofAdditions renewed) renewedCatalog :=
    ⟨renewedCatalog.entries, drained,
      (ofEntries_eq (by decide +kernel) (by decide +kernel) (.refl _)).symm⟩
  obtain ⟨-, bijective, newest, -⟩ := numbers_bijective finalized
  have last : lastWith? (added renewed) "%%NLS:b#k%%" =
      some (.ofCall .blank "b" (.plain "k") "new") := by
    decide +kernel
  exact ⟨finalized, bijective, newest _ _ last⟩

end BundlePrep.Message
