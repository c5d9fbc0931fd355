import BundlePrep.Message.Artifact
import BundlePrep.Proofs.Message.Arrival
import Mathlib.Data.List.Nodup
import Mathlib.Data.List.SplitBy

/-!
# Files that agree

The entries of each file come into a collection together, the files in any order. What is made of the
collection is the same for all orders exactly if no two files end up with different entries for one
placeholder.
-/

set_option autoImplicit false

namespace BundlePrep.Message

/-- What a collection holds after lists of entries have come in, one behind the other. -/
def gathered (lists : List (List Entry)) : Collection := lists.foldl Collection.addAll .empty

/-- No two lists end up with different entries for one placeholder. -/
def Agree (lists : List (List Entry)) : Prop :=
  lists.Pairwise fun xs ys => ∀ placeholder a b,
    lastWith? xs placeholder = some a → lastWith? ys placeholder = some b → a = b

/-- All that is made of two catalogs is the same. -/
structure SameIndex (a b : Catalog) : Prop where
  messages : a.messages = b.messages
  keys : a.keysByModule = b.keysByModule
  metadata : a.metadataJson = b.metadataJson
  script : ∀ globalName, a.script globalName = b.script globalName
  numbers : a.numbers = b.numbers

theorem SameIndex.refl (a : Catalog) : SameIndex a a := ⟨rfl, rfl, rfl, fun _ => rfl, rfl⟩

theorem gathered_eq (lists : List (List Entry)) :
    gathered lists = Collection.empty.addAll lists.flatten := by
  suffices all : ∀ collection, lists.foldl Collection.addAll collection =
      collection.addAll lists.flatten from all .empty
  induction lists with
  | nil => exact fun _ => rfl
  | cons xs lists ih =>
    intro collection
    rw [List.foldl_cons, ih, List.flatten_cons, Collection.addAll_append]

/-! ## What a catalog says of its entries -/

theorem moduleId_of_chain {e : Entry} {entries : List Entry}
    (h : (e :: entries).IsChain fun a b => (a.moduleId == b.moduleId) = true) :
    ∀ d ∈ e :: entries, d.moduleId = e.moduleId := by
  induction entries generalizing e with
  | nil =>
    intro d mem
    rw [List.mem_singleton.1 mem]
  | cons d entries ih =>
    obtain ⟨first, rest⟩ := List.isChain_cons_cons.1 h
    intro c mem
    rcases List.mem_cons.1 mem with rfl | mem
    · rfl
    · rw [ih rest c mem]
      exact (beq_iff_eq.1 first).symm

theorem flatMap_labelled {groups : List (List Entry)} (nonempty : [] ∉ groups)
    (chains : ∀ group ∈ groups, group.IsChain fun a b => (a.moduleId == b.moduleId) = true) :
    ((groups.filterMap fun group => group.head?.map fun e => (e.moduleId, group)).flatMap
        fun (moduleId, entries) => entries.map fun e => (moduleId, e.key)) =
      groups.flatten.map fun e => (e.moduleId, e.key) := by
  induction groups with
  | nil => rfl
  | cons group groups ih =>
    have rest := ih (fun mem => nonempty (List.mem_cons_of_mem _ mem))
      (fun g mem => chains g (List.mem_cons_of_mem _ mem))
    cases group with
    | nil => exact absurd (List.mem_cons_self ..) nonempty
    | cons e entries =>
      have own := moduleId_of_chain (chains _ (List.mem_cons_self ..))
      have first : (e :: entries).map (fun d => (e.moduleId, d.key)) =
          (e :: entries).map fun d => (d.moduleId, d.key) :=
        List.map_congr_left fun d mem => by rw [own d mem]
      rw [List.flatten_cons, List.map_append, ← first, ← rest]
      rfl

theorem flatMap_keysByModule (catalog : Catalog) :
    (catalog.keysByModule.flatMap fun (moduleId, keys) => keys.map fun key => (moduleId, key)) =
      catalog.entries.map fun e => (e.moduleId, e.key) := by
  have whole := flatMap_labelled
    (List.nil_notMem_splitBy (fun a b => a.moduleId == b.moduleId) catalog.entries)
    (fun group mem => List.isChain_of_mem_splitBy mem)
  rw [List.flatten_splitBy] at whole
  rw [← whole, Catalog.keysByModule, Catalog.groups, List.flatMap_map]
  simp only [List.map_map]
  rfl

theorem SameIndex.eq {a b : Catalog} (ha : Distinct a.entries) (hb : Distinct b.entries)
    (h : SameIndex a b) : a = b := by
  have length : a.entries.length = b.entries.length := by
    have same := congrArg List.length h.messages
    rwa [Catalog.messages, Catalog.messages, List.length_map, List.length_map] at same
  have keys : a.entries.map (fun e => (e.moduleId, e.key)) =
      b.entries.map fun e => (e.moduleId, e.key) := by
    rw [← flatMap_keysByModule, ← flatMap_keysByModule, h.keys]
  have messages : a.entries.map Entry.message = b.entries.map Entry.message := h.messages
  suffices entries : a.entries = b.entries from congrArg Catalog.mk entries
  refine List.ext_getElem length fun n below below' => ?_
  have number : a.numbers.number? (a.entries[n]).placeholder = some n :=
    (number?_eq_some_iff ha).2 ⟨_, List.getElem?_eq_getElem below, rfl⟩
  rw [h.numbers] at number
  obtain ⟨e, place, placeholder⟩ := (number?_eq_some_iff hb).1 number
  obtain rfl : b.entries[n] = e :=
    Option.some.inj ((List.getElem?_eq_getElem below').symm.trans place)
  have message := List.getElem_of_eq messages (i := n) (by simpa using below)
  have key := List.getElem_of_eq keys (i := n) (by simpa using below)
  simp only [List.getElem_map, Prod.mk.injEq] at message key
  cases left : a.entries[n]
  cases right : b.entries[n]
  simp_all

/-! ## All orders of the lists -/

theorem Distinct.nodup {entries : List Entry} (h : Distinct entries) : entries.Nodup :=
  List.Nodup.of_map Entry.placeholder h

theorem distinct_finalized {lists : List (List Entry)} {catalog : Catalog}
    (h : Finalizes (gathered lists) catalog) : Distinct catalog.entries := by
  rw [gathered_eq, finalizes_addAll] at h
  subst h
  exact distinct_ofCollection _

theorem lastWith?_flatten {lists : List (List Entry)} (agree : Agree lists) {placeholder : String}
    {e : Entry} : lastWith? lists.flatten placeholder = some e ↔
      ∃ xs ∈ lists, lastWith? xs placeholder = some e := by
  induction lists generalizing e with
  | nil => simp [lastWith?]
  | cons xs lists ih =>
    obtain ⟨first, rest⟩ := List.pairwise_cons.1 agree
    rw [List.flatten_cons, lastWith?_append, Option.or_eq_some_iff, ih rest]
    constructor
    · rintro (⟨ys, mem, last⟩ | ⟨-, last⟩)
      · exact ⟨ys, List.mem_cons_of_mem _ mem, last⟩
      · exact ⟨xs, List.mem_cons_self .., last⟩
    · rintro ⟨ys, mem, last⟩
      rcases List.mem_cons.1 mem with rfl | mem
      · cases later : lastWith? lists.flatten placeholder with
        | none => exact .inr ⟨rfl, last⟩
        | some d =>
          obtain ⟨zs, inside, found⟩ := (ih rest).1 later
          obtain rfl := first zs inside placeholder e d last found
          exact .inl ⟨zs, inside, found⟩
      · exact .inl ⟨ys, mem, last⟩

theorem Agree.perm {lists order : List (List Entry)} (agree : Agree lists)
    (perm : order.Perm lists) : Agree order := by
  refine (List.Perm.pairwise_iff ?_ perm).2 agree
  exact fun same placeholder a b ha hb => (same placeholder b a hb ha).symm

theorem Agree.ofCollection_eq {lists order : List (List Entry)} (agree : Agree lists)
    (perm : order.Perm lists) :
    Catalog.ofCollection (gathered order) = Catalog.ofCollection (gathered lists) := by
  rw [gathered_eq, gathered_eq]
  have distinct (entries : List Entry) := Collection.distinct_addAll entries
  refine ofEntries_of_perm (distinct _) ?_
  rw [List.perm_ext_iff_of_nodup (distinct _).nodup (distinct _).nodup]
  intro e
  rw [Collection.mem_addAll, Collection.mem_addAll, lastWith?_flatten agree,
    lastWith?_flatten (agree.perm perm)]
  exact exists_congr fun xs => and_congr_left' perm.mem_iff

theorem sameIndex_iff_agree {lists : List (List Entry)} :
    (∀ order order' catalog catalog', order.Perm lists → order'.Perm lists →
        Finalizes (gathered order) catalog → Finalizes (gathered order') catalog' →
        SameIndex catalog catalog') ↔ Agree lists := by
  constructor
  · intro same
    refine List.pairwise_iff_forall_sublist.2 fun {xs ys} sub placeholder a b ha hb => ?_
    obtain ⟨others, perm⟩ := sub.exists_perm_append
    have order : (others ++ [xs, ys]).Perm lists := List.perm_append_comm.trans perm.symm
    have order' : (others ++ [ys, xs]).Perm lists :=
      ((List.Perm.swap xs ys []).append_left others).trans order
    have whole : Catalog.ofCollection (gathered (others ++ [xs, ys])) =
        Catalog.ofCollection (gathered (others ++ [ys, xs])) :=
      (same _ _ _ _ order order' ⟨_, .refl _, rfl⟩ ⟨_, .refl _, rfl⟩).eq
        (distinct_finalized ⟨_, .refl _, rfl⟩) (distinct_finalized ⟨_, .refl _, rfl⟩)
    -- The list that comes last decides on the placeholder in each of the two catalogs.
    have held (front : List (List Entry)) {zs : List Entry} {e : Entry}
        (last : lastWith? zs placeholder = some e) :
        e ∈ (Catalog.ofCollection (gathered (front ++ [zs]))).entries := by
      rw [gathered_eq, mem_ofCollection, placeholder_of_lastWith? last, List.flatten_append,
        List.flatten_singleton, lastWith?_append, last, Option.some_or]
    have heldA : a ∈ (Catalog.ofCollection (gathered (others ++ [xs, ys]))).entries := by
      rw [whole]
      simpa using held (others ++ [ys]) ha
    have heldB : b ∈ (Catalog.ofCollection (gathered (others ++ [xs, ys]))).entries := by
      simpa using held (others ++ [xs]) hb
    rw [gathered_eq, mem_ofCollection, placeholder_of_lastWith? ha] at heldA
    rw [gathered_eq, mem_ofCollection, placeholder_of_lastWith? hb] at heldB
    exact Option.some.inj (heldA.symm.trans heldB)
  · intro agree order order' catalog catalog' perm perm' finalized finalized'
    rw [gathered_eq, finalizes_addAll, ← gathered_eq] at finalized finalized'
    subst finalized finalized'
    rw [agree.ofCollection_eq perm, agree.ofCollection_eq perm']
    exact .refl _

end BundlePrep.Message
