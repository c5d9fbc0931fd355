import BundlePrep.Proofs.Message.Ordering

/-!
# The order in which entries arrive

Of entries with one placeholder the last one stays, so what stays depends on the order in which the
entries arrive. Where no module has a number sign in its id, the placeholder says module and key, and
so the place in the catalog: the numbers are those of every other order.
-/

set_option autoImplicit false

namespace BundlePrep.Message

open BundlePrep.Text

/-! ## What a placeholder says -/

theorem flavor_of_placeholder {flavor flavor' : Flavor} {moduleId moduleId' key key' : String}
    (h : placeholder flavor moduleId key = placeholder flavor' moduleId' key') :
    flavor = flavor' := by
  have said := ofPlaceholder?_placeholder flavor moduleId key
  rw [h, ofPlaceholder?_placeholder] at said
  exact (Option.some.inj said).symm

theorem eq_of_first {c : Char} {a a' b b' : List Char} (h : c ∉ a) (h' : c ∉ a')
    (same : a ++ c :: b = a' ++ c :: b') : a = a' ∧ b = b' := by
  have front {a a' p b b' : List Char} (h' : c ∉ a') (first : a' = a ++ p)
      (second : c :: b = p ++ c :: b') : p = [] := by
    cases p with
    | nil => rfl
    | cons d p =>
      obtain ⟨rfl, -⟩ := List.cons.inj second
      exact absurd (by simp [first]) h'
  rcases List.append_eq_append_iff.1 same with ⟨p, first, second⟩ | ⟨p, first, second⟩
  · obtain rfl := front h' first second
    exact ⟨by rw [first, List.append_nil], (List.cons.inj second).2⟩
  · obtain rfl := front h first second
    exact ⟨by rw [first, List.append_nil], (List.cons.inj second).2.symm⟩

theorem placeholder_inj {flavor flavor' : Flavor} {moduleId moduleId' key key' : String}
    (plain : '#' ∉ moduleId.toList) (plain' : '#' ∉ moduleId'.toList)
    (h : placeholder flavor moduleId key = placeholder flavor' moduleId' key') :
    flavor = flavor' ∧ moduleId = moduleId' ∧ key = key' := by
  obtain rfl := flavor_of_placeholder h
  have texts := congrArg String.toList h
  rw [toList_placeholder, toList_placeholder, List.append_cancel_left_eq, List.append_assoc,
    List.append_assoc, List.cons_append, List.cons_append] at texts
  obtain ⟨modules, keys⟩ := eq_of_first plain plain' texts
  exact ⟨rfl, String.toList_inj.1 modules, String.toList_inj.1 (List.append_cancel_right keys)⟩

/-- An entry of a call in a module without a number sign in its id. -/
def Entry.Plain (e : Entry) : Prop :=
  ∃ flavor moduleId key message, '#' ∉ moduleId.toList ∧ e = .ofCall flavor moduleId key message

theorem Entry.Plain.sortKey_eq {a b : Entry} (ha : a.Plain) (hb : b.Plain)
    (same : a.placeholder = b.placeholder) : a.sortKey = b.sortKey := by
  obtain ⟨flavor, moduleId, key, message, plain, rfl⟩ := ha
  obtain ⟨flavor', moduleId', key', message', plain', rfl⟩ := hb
  obtain ⟨rfl, rfl, keys⟩ := placeholder_inj plain plain' same
  have said : bytes key.primary = bytes key'.primary := congrArg bytes keys
  have whole : bytes (Entry.ofCall flavor moduleId key message).placeholder =
      bytes (Entry.ofCall flavor moduleId key' message').placeholder := congrArg bytes same
  rw [sortKey, sortKey, whole]
  exact congrArg (fun k => [bytes moduleId, k, _]) said

/-! ## Numbers -/

theorem numbers_of_sortKeys {a b : Catalog}
    (h : a.entries.map Entry.sortKey = b.entries.map Entry.sortKey) : a.numbers = b.numbers := by
  have third (catalog : Catalog) : (catalog.entries.map Entry.sortKey).map (·.getLast?) =
      (catalog.entries.map Entry.placeholder).map fun p => some (bytes p) := by
    rw [List.map_map, List.map_map]
    rfl
  have injective : Function.Injective fun p => some (bytes p) :=
    fun _ _ same => bytes_inj.1 (Option.some.inj same)
  have placeholders : a.entries.map Entry.placeholder = b.entries.map Entry.placeholder :=
    List.map_injective_iff.2 injective (by rw [← third, ← third, h])
  rw [numbers_eq, numbers_eq, placeholders]

theorem Increasing.sortKeys {entries : List Entry} (h : Increasing entries) :
    (entries.map Entry.sortKey).Pairwise (· < ·) := List.pairwise_map.2 h

theorem nodup_of_increasing {keys : List (List (List UInt8))} (h : keys.Pairwise (· < ·)) :
    keys.Nodup := by
  refine h.imp ?_
  rintro a _ before rfl
  exact List.lt_irrefl a before

theorem mem_sortKeys {entries : List Entry} (plain : ∀ e ∈ entries, e.Plain)
    {key : List (List UInt8)} :
    key ∈ (Catalog.ofCollection (Collection.empty.addAll entries)).entries.map Entry.sortKey ↔
      ∃ e ∈ entries, e.sortKey = key := by
  rw [List.mem_map]
  constructor
  · rintro ⟨e, held, rfl⟩
    exact ⟨e, mem_of_lastWith? (mem_ofCollection.1 held), rfl⟩
  · rintro ⟨entry, mem, rfl⟩
    obtain ⟨e, last⟩ := lastWith?_of_mem mem
    have same := placeholder_of_lastWith? last
    have held : e ∈ (Catalog.ofCollection (Collection.empty.addAll entries)).entries :=
      mem_ofCollection.2 (same ▸ last)
    exact ⟨e, held, (plain e (mem_of_lastWith? last)).sortKey_eq (plain entry mem) same⟩

/-- Entries of modules without a number sign have the same numbers whatever the order and the groups
in which they are added. -/
theorem numbers_of_perm {additions additions' : List Addition}
    (plain : ∀ e ∈ added additions, e.Plain) (perm : (added additions').Perm (added additions))
    {catalog catalog' : Catalog} (finalized : Finalizes (Collection.ofAdditions additions) catalog)
    (finalized' : Finalizes (Collection.ofAdditions additions') catalog') :
    catalog.numbers = catalog'.numbers := by
  rw [Collection.ofAdditions_eq, finalizes_addAll] at finalized finalized'
  subst finalized finalized'
  have plain' : ∀ e ∈ added additions', e.Plain := fun e mem => plain e (perm.mem_iff.1 mem)
  have ordered := (increasing_ofCollection (added additions)).sortKeys
  have ordered' := (increasing_ofCollection (added additions')).sortKeys
  refine numbers_of_sortKeys (List.Perm.eq_of_pairwise
    (fun _ _ _ _ before behind => absurd behind (List.lt_asymm before)) ordered ordered' ?_)
  rw [List.perm_ext_iff_of_nodup (nodup_of_increasing ordered) (nodup_of_increasing ordered')]
  intro key
  refine (mem_sortKeys plain).trans (Iff.trans ?_ (mem_sortKeys plain').symm)
  exact exists_congr fun e => and_congr_left' perm.mem_iff.symm

def arriving : List Addition :=
  [.one (.ofCall .blank "a" (.plain "k") "one"),
    .all [.ofCall .keep "b" (.plain "l") "x", .ofCall .blank "a" (.described "k" ["c"]) "two"]]

def arrivingLater : List Addition :=
  [.all [.ofCall .blank "a" (.described "k" ["c"]) "two", .ofCall .keep "b" (.plain "l") "x"],
    .one (.ofCall .blank "a" (.plain "k") "one")]

theorem numbers_of_perm_arriving :
    ∃ catalog catalog', Finalizes (Collection.ofAdditions arriving) catalog ∧
      Finalizes (Collection.ofAdditions arrivingLater) catalog' ∧
      catalog.messages ≠ catalog'.messages ∧ catalog.numbers = catalog'.numbers := by
  let keep : Entry := .ofCall .keep "b" (.plain "l") "x"
  let first : Catalog := ⟨[.ofCall .blank "a" (.described "k" ["c"]) "two", keep]⟩
  let second : Catalog := ⟨[.ofCall .blank "a" (.plain "k") "one", keep]⟩
  have plain : ∀ e ∈ added arriving, e.Plain :=
    List.forall_mem_cons.2 ⟨⟨_, _, _, _, by decide, rfl⟩, List.forall_mem_cons.2
      ⟨⟨_, _, _, _, by decide, rfl⟩, List.forall_mem_singleton.2 ⟨_, _, _, _, by decide, rfl⟩⟩⟩
  have perm : (added arrivingLater).Perm (added arriving) := by decide +kernel
  have finalized : Finalizes (Collection.ofAdditions arriving) first :=
    ⟨_, .refl _, (ofEntries_eq (by decide +kernel) (by decide +kernel) (by decide +kernel)).symm⟩
  have finalized' : Finalizes (Collection.ofAdditions arrivingLater) second :=
    ⟨_, .refl _, (ofEntries_eq (by decide +kernel) (by decide +kernel) (by decide +kernel)).symm⟩
  exact ⟨first, second, finalized, finalized', by decide,
    numbers_of_perm plain perm finalized finalized'⟩

end BundlePrep.Message
