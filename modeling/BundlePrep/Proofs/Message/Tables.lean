import BundlePrep.Proofs.Message.Agreement

/-!
# One table in several artifacts

The keys of a catalog are listed in groups of entries that follow each other and have one module. Its
metadata list keys and messages by module, wherever the entries of a module stand. The entries are
sorted by module first, so these are the same groups.
-/

set_option autoImplicit false

namespace BundlePrep.Message

open BundlePrep.Json BundlePrep.Text

/-! ## Groups -/

/-- Entries by module: each group is labelled with the module of its entries, and none is empty. -/
structure Labelled (groups : List (String × List Entry)) : Prop where
  nonempty : ∀ group ∈ groups, group.2 ≠ []
  own : ∀ group ∈ groups, ∀ e ∈ group.2, e.moduleId = group.1

/-- The groups stand in the order of the bytes of their modules, so no module has two of them. -/
def Ascending (groups : List (String × List Entry)) : Prop :=
  groups.Pairwise fun a b => bytes a.1 < bytes b.1

theorem head?_filterMap_groups {lists : List (List Entry)} (nonempty : [] ∉ lists) :
    (lists.filterMap fun group => group.head?.map fun e => (e.moduleId, group)).map Prod.snd =
      lists := by
  induction lists with
  | nil => rfl
  | cons group lists ih =>
    rw [List.mem_cons, not_or] at nonempty
    obtain ⟨e, group, rfl⟩ := List.exists_cons_of_ne_nil (Ne.symm nonempty.1)
    simpa using ih nonempty.2

namespace Catalog

variable (catalog : Catalog)

theorem map_groups : catalog.groups.map Prod.snd =
    catalog.entries.splitBy fun a b => a.moduleId == b.moduleId :=
  head?_filterMap_groups (List.nil_notMem_splitBy _ _)

theorem flatMap_groups : catalog.groups.flatMap Prod.snd = catalog.entries := by
  rw [List.flatMap_def, map_groups, List.flatten_splitBy]

theorem labelled_groups : Labelled catalog.groups := by
  have parts {group : String × List Entry} (mem : group ∈ catalog.groups) :
      ∃ e, group.2.head? = some e ∧ e.moduleId = group.1 := by
    obtain ⟨entries, -, same⟩ := List.mem_filterMap.1 mem
    obtain ⟨e, first, rfl⟩ := Option.map_eq_some_iff.1 same
    exact ⟨e, first, rfl⟩
  refine ⟨fun group mem => ?_, fun group mem => ?_⟩
  · obtain ⟨e, first, -⟩ := parts mem
    rintro empty
    rw [empty] at first
    cases first
  · obtain ⟨e, first, label⟩ := parts mem
    obtain ⟨entries, whole⟩ := List.head?_eq_some_iff.1 first
    have listed : group.2 ∈ catalog.groups.map Prod.snd := List.mem_map_of_mem mem
    rw [map_groups] at listed
    have chain := List.isChain_of_mem_splitBy listed
    rw [whole] at chain ⊢
    exact fun d mem => (moduleId_of_chain chain d mem).trans label

end Catalog

/-! ## Groups of sorted entries -/

theorem moduleId_of_isLE {a b : Entry} (h : (a.compare b).isLE = true) :
    a.moduleId = b.moduleId ∨ bytes a.moduleId < bytes b.moduleId := by
  cases order : Ord.compare a.moduleId b.moduleId with
  | lt => exact .inr (bytes_lt_iff.2 (compare_lt_iff_lt.1 order))
  | eq => exact .inl (compare_eq_iff_eq.1 order)
  | gt =>
    rw [Entry.compare, order] at h
    cases h

theorem labelled_cons {group : String × List Entry} {groups : List (String × List Entry)}
    (h : Labelled (group :: groups)) : Labelled groups :=
  ⟨fun g mem => h.nonempty g (by simp [mem]), fun g mem => h.own g (by simp [mem])⟩

theorem ascending_of_sorted {groups : List (String × List Entry)} (labelled : Labelled groups)
    (apart : groups.IsChain fun a b => a.1 ≠ b.1)
    (sorted : (groups.flatMap Prod.snd).Pairwise fun a b => (a.compare b).isLE) :
    Ascending groups := by
  induction groups with
  | nil => exact .nil
  | cons a groups ih =>
    rw [List.flatMap_cons, List.pairwise_append] at sorted
    have rest := ih (labelled_cons labelled) apart.tail sorted.2.1
    refine List.pairwise_cons.2 ⟨?_, rest⟩
    cases groups with
    | nil => simp
    | cons b groups =>
      obtain ⟨d, ds, first⟩ := List.exists_cons_of_ne_nil (labelled.nonempty a (by simp))
      obtain ⟨e, es, second⟩ := List.exists_cons_of_ne_nil (labelled.nonempty b (by simp))
      have order := moduleId_of_isLE
        (sorted.2.2 d (by simp [first]) e (by simp [second]))
      rw [labelled.own a (by simp) d (by simp [first]),
        labelled.own b (by simp) e (by simp [second])] at order
      have before := order.resolve_left (List.isChain_cons_cons.1 apart).1
      intro c mem
      rcases List.mem_cons.1 mem with rfl | mem
      · exact before
      · exact List.lt_trans before ((List.pairwise_cons.1 rest).1 c mem)

theorem sorted_ofEntries (entries : List Entry) :
    (Catalog.ofEntries entries).entries.Pairwise fun a b => (a.compare b).isLE :=
  List.pairwise_mergeSort (fun _ _ _ => Std.TransCmp.isLE_trans) Entry.isLE_total entries

theorem ascending_groups (entries : List Entry) : Ascending (Catalog.ofEntries entries).groups := by
  let catalog := Catalog.ofEntries entries
  have labelled := catalog.labelled_groups
  have borders := List.isChain_getLast_head_splitBy (fun a b : Entry => a.moduleId == b.moduleId)
    catalog.entries
  rw [← catalog.map_groups, List.isChain_map] at borders
  refine ascending_of_sorted labelled ?_ ?_
  · refine borders.imp_of_mem_imp fun a b memA memB ⟨ha, hb, other⟩ same => ?_
    rw [labelled.own a memA _ (List.getLast_mem ha), labelled.own b memB _ (List.head_mem hb),
      same, beq_self_eq_true] at other
    cases other
  · rw [catalog.flatMap_groups]
    exact sorted_ofEntries entries

/-! ## Lists by module -/

theorem putBehind_new {α : Type} {moduleId : String} (value : α) {modules : List (String × List α)}
    (new : moduleId ∉ modules.map Prod.fst) :
    putBehind moduleId value modules = modules ++ [(moduleId, [value])] := by
  induction modules with
  | nil => rfl
  | cons entry modules ih =>
    obtain ⟨other, values⟩ := entry
    rw [List.map_cons, List.mem_cons, not_or] at new
    rw [putBehind, if_neg (Ne.symm new.1), ih new.2, List.cons_append]

theorem putBehind_last {α : Type} {moduleId : String} (value : α) (values : List α)
    {modules : List (String × List α)} (new : moduleId ∉ modules.map Prod.fst) :
    putBehind moduleId value (modules ++ [(moduleId, values)]) =
      modules ++ [(moduleId, values ++ [value])] := by
  induction modules with
  | nil => simp [putBehind]
  | cons entry modules ih =>
    obtain ⟨other, values'⟩ := entry
    rw [List.map_cons, List.mem_cons, not_or] at new
    rw [List.cons_append, putBehind, if_neg (Ne.symm new.1), ih new.2, List.cons_append]

section

variable {α : Type} (value : Entry → α)

theorem foldl_putBehind_own {moduleId : String} {modules : List (String × List α)}
    (new : moduleId ∉ modules.map Prod.fst) {entries : List Entry}
    (own : ∀ e ∈ entries, e.moduleId = moduleId) (values : List α) :
    entries.foldl (fun modules e => putBehind e.moduleId (value e) modules)
        (modules ++ [(moduleId, values)]) =
      modules ++ [(moduleId, values ++ entries.map value)] := by
  induction entries generalizing values with
  | nil => simp
  | cons e entries ih =>
    rw [List.foldl_cons, own e (by simp), putBehind_last _ _ new,
      ih fun d mem => own d (by simp [mem])]
    simp

theorem foldl_putBehind {modules : List (String × List α)} {groups : List (String × List Entry)}
    (labelled : Labelled groups) (distinct : (modules.map Prod.fst ++ groups.map Prod.fst).Nodup) :
    (groups.flatMap Prod.snd).foldl (fun modules e => putBehind e.moduleId (value e) modules)
        modules =
      modules ++ groups.map fun group => (group.1, group.2.map value) := by
  induction groups generalizing modules with
  | nil => simp
  | cons group groups ih =>
    obtain ⟨moduleId, entries⟩ := group
    obtain ⟨e, entries, rfl⟩ := List.exists_cons_of_ne_nil
      (labelled.nonempty (moduleId, entries) (by simp))
    have own := labelled.own (moduleId, e :: entries) (by simp)
    have new : moduleId ∉ modules.map Prod.fst := by
      rw [List.map_cons, List.nodup_append] at distinct
      exact fun mem => distinct.2.2 _ mem moduleId (by simp) rfl
    rw [List.flatMap_cons, List.foldl_append, List.foldl_cons, own e (by simp),
      putBehind_new _ new, foldl_putBehind_own value new fun d mem => own d (by simp [mem]),
      ih (labelled_cons labelled)]
    · simp
    · simpa using distinct

theorem byModule_eq {catalog : Catalog} (ascending : Ascending catalog.groups) :
    catalog.byModule value = catalog.groups.map fun group => (group.1, group.2.map value) := by
  have distinct : (catalog.groups.map Prod.fst).Nodup := by
    refine List.pairwise_map.2 (ascending.imp fun {a b} before same => ?_)
    rw [same] at before
    exact List.lt_irrefl _ before
  rw [Catalog.byModule, ← catalog.flatMap_groups]
  exact @foldl_putBehind _ value [] _ catalog.labelled_groups distinct

end

/-! ## One table -/

/-- The artifacts of a catalog list the entries of the same groups, each list in their order. -/
structure OneTable (catalog : Catalog) (groups : List (String × List Entry)) : Prop where
  ascending : Ascending groups
  labelled : Labelled groups
  entries : groups.flatMap Prod.snd = catalog.entries
  keys : catalog.keysByModule = groups.map fun group => (group.1, group.2.map Entry.key)
  allKeys : catalog.keysByModule.flatMap Prod.snd = catalog.entries.map Entry.key
  metadata : catalog.metadataJson = .ofMembers [
    ("keys", .ofMembers (groups.map fun group =>
      (group.1, .list (group.2.map fun e => e.key.toJson)))),
    ("messages", .ofMembers (groups.map fun group =>
      (group.1, .list (group.2.map fun e => .ofText e.message))))]
  allMessages : (groups.flatMap fun group => group.2.map Entry.message) = catalog.messages

theorem oneTable_groups {catalog : Catalog} (ascending : Ascending catalog.groups) :
    OneTable catalog catalog.groups := by
  have map {α : Type} (value : Entry → α) :
      (catalog.groups.flatMap fun group => group.2.map value) = catalog.entries.map value := by
    rw [← catalog.flatMap_groups, List.map_flatMap]
  exact
    { ascending
      labelled := catalog.labelled_groups
      entries := catalog.flatMap_groups
      keys := rfl
      allKeys := by rw [Catalog.keysByModule, List.flatMap_map, ← map]
      metadata := by
        simp only [Catalog.metadataJson, Catalog.jsonByModule, byModule_eq _ ascending,
          List.map_map, Function.comp_def]
      allMessages := map Entry.message }

/-- The artifacts of a catalog describe one table: its entries by module, the modules in the order of
their bytes. Keys and messages of a module belong to the same entries, position by position, and the
number of a placeholder is the position of an entry with it. -/
theorem exists_oneTable (entries : List Entry) :
    (∃ groups, OneTable (Catalog.ofEntries entries) groups ∧
      ∀ moduleId, moduleId ∈ groups.map Prod.fst ↔ ∃ e ∈ entries, e.moduleId = moduleId) ∧
    (Catalog.ofEntries entries).entries.Perm entries ∧
    (Catalog.ofEntries entries).entries.Pairwise (fun a b => (a.compare b).isLE) ∧
    ∀ placeholder number, (placeholder, number) ∈ (Catalog.ofEntries entries).numbers →
      ∃ e, (Catalog.ofEntries entries).entries[number]? = some e ∧ e.placeholder = placeholder := by
  have perm := Catalog.ofEntries_perm entries
  have table := oneTable_groups (ascending_groups entries)
  refine ⟨⟨_, table, fun moduleId => ?_⟩, perm, sorted_ofEntries entries,
    fun placeholder number mem => ?_⟩
  · constructor
    · intro listed
      obtain ⟨group, mem, rfl⟩ := List.mem_map.1 listed
      obtain ⟨e, es, whole⟩ := List.exists_cons_of_ne_nil (table.labelled.nonempty group mem)
      have inside : e ∈ group.2 := by simp [whole]
      refine ⟨e, perm.mem_iff.1 ?_, table.labelled.own group mem e inside⟩
      rw [← table.entries]
      exact List.mem_flatMap.2 ⟨group, mem, inside⟩
    · rintro ⟨e, mem, rfl⟩
      rw [← perm.mem_iff, ← table.entries] at mem
      obtain ⟨group, mem, inside⟩ := List.mem_flatMap.1 mem
      exact List.mem_map.2 ⟨group, mem, (table.labelled.own group mem e inside).symm⟩
  · rw [numbers_eq] at mem
    have listed := List.mem_zipIdx_iff_getElem?.1 (mem_of_mem_ofPairs mem)
    rw [List.getElem?_map] at listed
    exact Option.map_eq_some_iff.1 listed

end BundlePrep.Message
