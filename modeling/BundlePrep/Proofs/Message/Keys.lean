import BundlePrep.Proofs.Message.Cut
import Mathlib.Data.List.Forall2

/-!
# Keys in a text

The keys of the calls that are recorded are parts of the text. Positions grow with the text in front
of them, so keys whose ranges are clear of each other cut the text one behind the other.
-/

set_option autoImplicit false

namespace BundlePrep.Text

open BundlePrep.Message

/-! ## The order of positions -/

theorem notAfter_iff {a b : Position} :
    notAfter a b = true ↔ a.line < b.line ∨ a.line = b.line ∧ a.column ≤ b.column := by
  simp [notAfter]

theorem notAfter_trans {a b c : Position} (h : notAfter a b = true) (h' : notAfter b c = true) :
    notAfter a c = true := by
  rw [notAfter_iff] at h h' ⊢
  omega

theorem notAfter_total (a b : Position) : notAfter a b = true ∨ notAfter b a = true := by
  rw [notAfter_iff, notAfter_iff]
  omega

theorem notAfter_positionOf (p x : List Char) :
    notAfter (positionOf p) (positionOf (p ++ x)) = true ∧
      (x ≠ [] → notAfter (positionOf (p ++ x)) (positionOf p) = false) := by
  by_cases lineFeed : '\n' ∈ x
  · have more : 0 < x.count '\n' := List.count_pos_iff.2 lineFeed
    have lines : (positionOf p).line < (positionOf (p ++ x)).line := by
      simp only [positionOf, length_heads, List.count_append]
      omega
    refine ⟨notAfter_iff.2 (.inl lines), fun _ => ?_⟩
    rw [Bool.eq_false_iff, ne_eq, notAfter_iff]
    omega
  · have none : heads x = [] := heads_eq_nil_iff.2 lineFeed
    have apart : p.getLast? = some '\r' → x.head? ≠ some '\n' :=
      fun _ head => lineFeed (List.mem_of_head? head)
    have behind := positionOf_append x apart
    rw [none, lastLine_plain lineFeed] at behind
    simp only [List.length_nil, Nat.add_zero, if_true] at behind
    rw [behind, positionOf]
    constructor
    · exact notAfter_iff.2 (.inr ⟨rfl, Nat.le_add_right _ _⟩)
    · intro nonempty
      have size : 0 < byteLength x := by
        obtain ⟨c, cs, rfl⟩ := List.exists_cons_of_ne_nil nonempty
        have := c.utf8Size_pos
        simp only [byteLength]
        omega
      rw [Bool.eq_false_iff, ne_eq, notAfter_iff]
      simp only
      omega

/-- Of two texts with which one text begins, the one whose position is not after the other is the
shorter. -/
theorem prefix_of_notAfter {p q text : List Char} (hp : p <+: text) (hq : q <+: text)
    (h : notAfter (positionOf p) (positionOf q) = true) : p <+: q := by
  rcases List.prefix_or_prefix_of_prefix hp hq with shorter | ⟨x, rfl⟩
  · exact shorter
  · by_cases empty : x = []
    · simp [empty]
    · rw [(notAfter_positionOf q x).2 empty] at h
      cases h

end BundlePrep.Text

namespace BundlePrep.Message

open BundlePrep.Json BundlePrep.Script BundlePrep.Text

/-! ## Parts of a text -/

def Covers (text : List Char) (range : Range) : Prop :=
  ∃ front part behind, text = front ++ (part ++ behind) ∧ part ≠ [] ∧
    range = ⟨positionOf front, positionOf (front ++ part)⟩

/-- Two ranges, one of which ends before the other begins. -/
def Clear (a b : Range) : Prop := notAfter a.stop b.start = true ∨ notAfter b.stop a.start = true

theorem slice?_eq_some {text part : List Char} {start stop : Nat}
    (h : slice? text start stop = some part) : ∃ front behind,
      text = front ++ (part ++ behind) ∧ start = byteLength front ∧
        stop = byteLength (front ++ part) := by
  unfold slice? at h
  split at h
  · cases h
  next ordered =>
    simp only [Option.bind_eq_bind, Option.bind_eq_some_iff, Option.pure_def] at h
    obtain ⟨⟨front, rest⟩, first, ⟨inner, behind⟩, second, same⟩ := h
    obtain rfl : inner = part := Option.some.inj same
    obtain ⟨rfl, size⟩ := splitAt?_eq_some first
    obtain ⟨same, size'⟩ := splitAt?_eq_some second
    refine ⟨front, behind, by rw [← same], size, ?_⟩
    rw [byteLength_append]
    omega

theorem parseKey_nil (key : Key) : parseKey "" ≠ .ok key := by
  have fails : (parseKey "").toOption = none := by decide +kernel
  intro h
  rw [h] at fails
  cases fails

theorem exists_key {text : List Char} {flavor : Flavor} {site : Site} {key : Key}
    (h : parseKey (Call.ofSite flavor text (.ofText text) site).key = .ok key) :
    ∃ front part behind, text = front ++ (part ++ behind) ∧ part ≠ [] ∧
      site.key.start = byteLength front ∧
      (Call.ofSite flavor text (.ofText text) site).keyRange =
        ⟨positionOf front, positionOf (front ++ part)⟩ := by
  simp only [Call.ofSite, textAt] at h ⊢
  cases found : slice? text site.key.start site.key.stop with
  | none =>
    rw [found] at h
    exact absurd h (parseKey_nil key)
  | some part =>
    rw [found, Option.getD_some] at h
    obtain ⟨front, behind, whole, start, stop⟩ := slice?_eq_some found
    refine ⟨front, part, behind, whole, ?_, start, ?_⟩
    · rintro rfl
      exact parseKey_nil key h
    · have second : text = (front ++ part) ++ behind := by rw [whole, List.append_assoc]
      unfold LineIndex.range
      congr 1
      · rw [start, whole, position_append]
      · rw [stop, second, position_append]

theorem covers_ofSite {text : List Char} {flavor : Flavor} {site : Site} {key : Key}
    (h : parseKey (Call.ofSite flavor text (.ofText text) site).key = .ok key) :
    Covers text (Call.ofSite flavor text (.ofText text) site).keyRange := by
  obtain ⟨front, part, behind, whole, nonempty, -, range⟩ := exists_key h
  exact ⟨front, part, behind, whole, nonempty, range⟩

theorem mem_recorded {dialect : Dialect} {code : String} {call : Call} :
    call ∈ recorded dialect code ↔ occursIn Flavor.blank.function.toList code.toList = true ∧
      ∃ program, Program.parse? dialect code.toList = some program ∧
        ∃ flavor, ∃ site ∈ sites flavor program,
          call = .ofSite flavor code.toList (.ofText code.toList) site := by
  unfold recorded
  split
  next named =>
    cases parsed : Program.parse? dialect code.toList with
    | none => simp
    | some program =>
      simp [allCalls, calls, named, mem_flavors, eq_comm]
  next named => simp [named]

theorem exists_ofSite {dialect : Dialect} {code : String} {call : Call}
    (h : call ∈ recorded dialect code) :
    ∃ flavor site, call = .ofSite flavor code.toList (.ofText code.toList) site := by
  obtain ⟨-, program, -, flavor, site, -, same⟩ := mem_recorded.1 h
  exact ⟨flavor, site, same⟩

theorem sorted_recorded (dialect : Dialect) (code : String) :
    (recorded dialect code).Pairwise fun a b =>
      notAfter a.keyRange.start b.keyRange.start = true := by
  unfold recorded
  split
  · cases Program.parse? dialect code.toList with
    | none => exact .nil
    | some program =>
      rw [Option.map_some, Option.getD_some, allCalls]
      refine List.pairwise_mergeSort ?_ ?_ _
      · exact fun _ _ _ => notAfter_trans
      · exact fun _ _ => Bool.or_eq_true_iff.2 (notAfter_total _ _)
  · exact .nil

theorem extract_of_sorted {dialect : Dialect} {moduleId code : String} {found : List Call}
    {entries : List Entry}
    (named : occursIn Flavor.blank.function.toList code.toList = true)
    (listed : (Program.parse? dialect code.toList).map (fun program =>
      Flavor.all.flatMap fun flavor => calls flavor code.toList program) = some found)
    (sorted : found.Pairwise fun a b => notAfter a.keyRange.start b.keyRange.start = true)
    (each : found.mapM (entryOf moduleId) = .ok entries) (nonempty : entries.isEmpty = false) :
    recorded dialect code = found ∧ extract dialect moduleId code =
      .ok ⟨String.ofList (replaceKeys (.ofText code.toList) (found.zip entries)).toText, entries⟩ := by
  obtain ⟨program, parsed, rfl⟩ := Option.map_eq_some_iff.1 listed
  have order : allCalls code.toList program =
      Flavor.all.flatMap fun flavor => calls flavor code.toList program :=
    List.mergeSort_of_pairwise sorted
  constructor
  · rw [recorded, if_pos named, parsed, Option.map_some, Option.getD_some, order]
  · simp only [extract, named, parsed, order, each, nonempty, bind, Except.bind, Bool.not_true,
      Bool.false_eq_true, if_false]
    rfl

/-! ## Cutting a text at its keys -/

/-- A text that is cut at the keys of its calls. -/
structure KeyCut (text : List Char) (calls : List Call) (entries : List Entry) (ps : List Patch)
    (last : List Char) : Prop where
  whole : text = joined last ps
  places : ranges [] ps = replacements calls entries

theorem exists_patches {text : List Char} {front rest : List Char} (whole : text = front ++ rest)
    {found : List (Range × List Char)} (covers : ∀ r ∈ found, Covers text r.1)
    (ordered : found.Pairwise fun a b => notAfter a.1.stop b.1.start = true)
    (behind : ∀ r ∈ found, notAfter (positionOf front) r.1.start = true) :
    ∃ ps last, rest = joined last ps ∧ ranges front ps = found := by
  induction found generalizing front rest with
  | nil => exact ⟨[], rest, rfl, rfl⟩
  | cons r found ih =>
    obtain ⟨range, content⟩ := r
    obtain ⟨first, further⟩ := List.pairwise_cons.1 ordered
    obtain ⟨pre, part, post, cut, -, rfl⟩ := covers _ (List.mem_cons_self ..)
    have shorter : front <+: pre :=
      prefix_of_notAfter ⟨rest, whole.symm⟩ ⟨_, cut.symm⟩ (behind _ (List.mem_cons_self ..))
    obtain ⟨before, rfl⟩ := shorter
    have own : rest = before ++ (part ++ post) := by
      rw [whole, List.append_assoc] at cut
      exact List.append_cancel_left cut
    have next : text = front ++ before ++ part ++ post := by rw [cut, List.append_assoc _ part]
    obtain ⟨ps, last, same, places⟩ := ih next
      (fun r mem => covers r (List.mem_cons_of_mem _ mem)) further first
    exact ⟨⟨before, part, content⟩ :: ps, last, by rw [own, same, joined], by rw [ranges, places]⟩

/-- Of two parts of a text that are clear of each other, the one that begins first ends before the
other begins. -/
theorem Covers.ordered {text : List Char} {a b : Range} (hb : Covers text b) (clear : Clear a b)
    (sorted : notAfter a.start b.start = true) : notAfter a.stop b.start = true := by
  refine clear.resolve_right fun before => ?_
  obtain ⟨front, part, behind, -, nonempty, rfl⟩ := hb
  have back := notAfter_trans before sorted
  rw [(notAfter_positionOf front part).2 nonempty] at back
  cases back

theorem exists_keyCut {dialect : Dialect} {moduleId code : String} {extraction : Extraction}
    (extracted : extract dialect moduleId code = .ok extraction)
    (clear : (recorded dialect code).Pairwise fun a b => Clear a.keyRange b.keyRange) :
    ∃ ps last, KeyCut code.toList (recorded dialect code) extraction.entries ps last := by
  have each := List.forall₂_iff_zip.1 (extract_eq_ok extracted).1
  let found := (recorded dialect code).zip extraction.entries
  have calls : found.map Prod.fst = recorded dialect code := List.map_fst_zip (Nat.le_of_eq each.1)
  have covers : ∀ r ∈ found, Covers code.toList r.1.keyRange := by
    rintro ⟨call, entry⟩ mem
    obtain ⟨flavor, site, rfl⟩ := exists_ofSite (List.of_mem_zip mem).1
    obtain ⟨key, -, parsed, -⟩ := entryOf_eq_ok (each.2 mem)
    exact covers_ofSite parsed
  have sorted := sorted_recorded dialect code
  rw [← calls, List.pairwise_map] at clear sorted
  have ordered : found.Pairwise fun a b =>
      notAfter a.1.keyRange.stop b.1.keyRange.start = true :=
    (clear.and sorted).imp_of_mem fun _ mem h => (covers _ mem).ordered h.1 h.2
  have covered : ∀ r ∈ replacements (recorded dialect code) extraction.entries,
      Covers code.toList r.1 := by
    intro r mem
    obtain ⟨pair, inside, rfl⟩ := List.mem_map.1 mem
    exact covers pair inside
  obtain ⟨ps, last, whole, places⟩ := exists_patches (List.nil_append _).symm covered
    (List.pairwise_map.2 ordered) fun r mem => by
      obtain ⟨front, part, behind, -, -, same⟩ := covered r mem
      rw [same]
      exact (notAfter_positionOf [] front).1
  exact ⟨ps, last, whole, places⟩

end BundlePrep.Message
