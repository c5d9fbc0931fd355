import BundlePrep.Proofs.Text.ByteOrder
import BundlePrep.Proofs.Text.Portion

/-!
# What a walk over edits keeps and puts

Edits may overlap, run backwards, begin at one place or reach past the text. The walk over them keeps
the bytes that none of them covers, each once and in order. Every new text stands behind the kept bytes
in front of its own start and of the ends of the edits before it. Edits that are clear of each other
give what splicing them one by one gives, from the last one to the first.
-/

set_option autoImplicit false

namespace BundlePrep.Text

/-! ## The parts of an edited text -/

/-- A part of an edited text: a byte that was kept, by its place, or what an edit puts. -/
inductive Element where
  | byte (place : Nat)
  | insertion (edit : Edit)

namespace Element

/-- The bytes of an element, where the bytes before the edits are known. -/
def bytes (old : List UInt8) : Element → List UInt8
  | .byte place => old[place]?.toList
  | .insertion edit => Text.bytes edit.content

def edit? : Element → Option Edit
  | .byte _ => none
  | .insertion edit => some edit

end Element

def Edit.covers (e : Edit) (place : Nat) : Bool := e.start ≤ place && place < e.stop

/-- The greatest of a place and the stops of edits, but no more than the size of the text. -/
def reach (size : Nat) (before : List Edit) (place : Nat) : Nat :=
  min (before.foldl (fun far e => max far e.stop) place) size

/-- An offset between characters. -/
def Between (text : List Char) (offset : Nat) : Prop :=
  ∃ front behind, text = front ++ behind ∧ offset = byteLength front

/-- An offset at which a text is cut for an edit: where the edit begins or stops, unless an earlier one
goes further. -/
def Uses (size : Nat) (edits : List Edit) (offset : Nat) : Prop :=
  ∃ before e after, Edit.sorted edits = before ++ e :: after ∧
    (offset = reach size before e.start ∨ offset = reach size before (max e.start e.stop))

/-! ## The place of the walk -/

structure Reached (size : Nat) (done : List Edit) (cursor : Nat) : Prop where
  inside : cursor ≤ size
  stops : ∀ e ∈ done, min e.stop size ≤ cursor
  seen : ∀ place, (∀ e ∈ done, e.start ≤ place) →
    min (max place cursor) size = reach size done place

def startOf (size cursor : Nat) (e : Edit) : Nat := min (max e.start cursor) size

def stopOf (size cursor : Nat) (e : Edit) : Nat := min (max e.stop (startOf size cursor e)) size

theorem reached_nil (size : Nat) : Reached size [] 0 where
  inside := Nat.zero_le size
  stops := by simp
  seen place _ := by simp [reach]

theorem cursor_le_startOf {size cursor : Nat} (e : Edit) (inside : cursor ≤ size) :
    cursor ≤ startOf size cursor e := by
  unfold startOf
  omega

theorem startOf_le_stopOf (size cursor : Nat) (e : Edit) :
    startOf size cursor e ≤ stopOf size cursor e := by
  unfold stopOf startOf
  omega

theorem stopOf_le (size cursor : Nat) (e : Edit) : stopOf size cursor e ≤ size := by
  unfold stopOf
  omega

namespace Reached

variable {size cursor : Nat} {done : List Edit} {e : Edit}

theorem startOf_eq (h : Reached size done cursor) (order : ∀ d ∈ done, d.start ≤ e.start) :
    startOf size cursor e = reach size done e.start := h.seen e.start order

theorem stopOf_eq (h : Reached size done cursor) (order : ∀ d ∈ done, d.start ≤ e.start) :
    stopOf size cursor e = reach size done (max e.start e.stop) := by
  rw [← h.seen (max e.start e.stop) fun d mem => Nat.le_trans (order d mem) (Nat.le_max_left ..)]
  unfold stopOf startOf
  omega

theorem step (h : Reached size done cursor) : Reached size (done ++ [e]) (stopOf size cursor e) where
  inside := stopOf_le size cursor e
  stops d mem := by
    have inside := h.inside
    rcases List.mem_append.1 mem with mem | mem
    · have before := h.stops d mem
      unfold stopOf startOf
      omega
    · obtain rfl := List.mem_singleton.1 mem
      unfold stopOf
      omega
  seen place order := by
    obtain ⟨before, own⟩ := List.forall_mem_append.1 order
    have later := own e (List.mem_singleton_self e)
    have seen := h.seen place before
    simp only [reach, List.foldl_append, List.foldl_cons, List.foldl_nil] at seen ⊢
    unfold stopOf startOf
    omega

end Reached

/-! ## The elements that the walk gives -/

theorem between_append {front rest : List Char} {count : Nat} :
    Between (front ++ rest) (byteLength front + count) ↔ Between rest count := by
  constructor
  · rintro ⟨before, behind, whole, size⟩
    obtain ⟨gap, rfl, rfl⟩ := exists_between whole (by omega)
    rw [byteLength_append] at size
    exact ⟨gap, behind, rfl, by omega⟩
  · rintro ⟨gap, behind, rfl, rfl⟩
    exact ⟨front ++ gap, behind, by simp, by rw [byteLength_append]⟩

def cutsFrom (size cursor : Nat) : List Edit → List Nat
  | [] => []
  | e :: es => startOf size cursor e :: stopOf size cursor e ::
      cutsFrom size (stopOf size cursor e) es

theorem mem_cutsFrom {size cursor offset : Nat} {done es : List Edit}
    (h : Reached size done cursor)
    (ordered : (done ++ es).Pairwise fun a b => a.start ≤ b.start) :
    offset ∈ cutsFrom size cursor es ↔ ∃ before e after, es = before ++ e :: after ∧
      (offset = reach size (done ++ before) e.start ∨
        offset = reach size (done ++ before) (max e.start e.stop)) := by
  induction es generalizing cursor done with
  | nil => simp [cutsFrom]
  | cons d es ih =>
    have first : ∀ c ∈ done, c.start ≤ d.start := fun c mem =>
      (List.pairwise_append.1 ordered).2.2 c mem d (List.mem_cons_self ..)
    rw [cutsFrom, List.mem_cons, List.mem_cons, ih h.step (by simpa using ordered),
      h.startOf_eq first, h.stopOf_eq first]
    constructor
    · rintro (start | stop | ⟨before, e, after, rfl, found⟩)
      · exact ⟨[], d, es, rfl, .inl (by simpa using start)⟩
      · exact ⟨[], d, es, rfl, .inr (by simpa using stop)⟩
      · exact ⟨d :: before, e, after, rfl, by simpa using found⟩
    · rintro ⟨before, e, after, same, found⟩
      cases before with
      | nil =>
        obtain ⟨rfl, rfl⟩ := List.cons.inj same
        rw [List.append_nil] at found
        exact found.imp_right .inl
      | cons own before =>
        obtain ⟨rfl, rfl⟩ := List.cons.inj same
        exact .inr (.inr ⟨before, e, after, rfl, by simpa using found⟩)

theorem walk_cons (size cursor : Nat) (rest : List Char) (e : Edit) (es : List Edit) :
    Edit.walk size cursor rest (e :: es) =
      (splitAt? (startOf size cursor e - cursor) rest).bind fun cut =>
        (splitAt? (stopOf size cursor e - startOf size cursor e) cut.2).bind fun next =>
          (Edit.walk size (stopOf size cursor e) next.2 es).bind fun tail =>
            some (cut.1 ++ e.content.toList ++ tail) := rfl

theorem walk_isSome_iff {text front rest : List Char} {es : List Edit}
    (whole : text = front ++ rest) :
    (∃ out, Edit.walk (byteLength text) (byteLength front) rest es = some out) ↔
      ∀ offset ∈ cutsFrom (byteLength text) (byteLength front) es, Between text offset := by
  induction es generalizing front rest with
  | nil => simp [Edit.walk, cutsFrom]
  | cons e es ih =>
    have inside : byteLength front ≤ byteLength text := by
      rw [whole, byteLength_append]
      omega
    have first := cursor_le_startOf e inside
    have second := startOf_le_stopOf (byteLength text) (byteLength front) e
    rw [cutsFrom, List.forall_mem_cons, List.forall_mem_cons, walk_cons]
    set start := startOf (byteLength text) (byteLength front) e
    set stop := stopOf (byteLength text) (byteLength front) e
    constructor
    · rintro ⟨out, walked⟩
      simp only [Option.bind_eq_some_iff] at walked
      obtain ⟨⟨kept, behind⟩, cut, ⟨taken, further⟩, cut', tail, walked, -⟩ := walked
      obtain ⟨rfl, keptSize⟩ := splitAt?_eq_some cut
      obtain ⟨rfl, takenSize⟩ := splitAt?_eq_some cut'
      have size : stop = byteLength (front ++ kept ++ taken) := by
        rw [byteLength_append, byteLength_append]
        omega
      have next : text = front ++ kept ++ taken ++ further := by simp [whole]
      refine ⟨⟨front ++ kept, taken ++ further, by simp [whole], ?_⟩,
        ⟨front ++ kept ++ taken, further, next, size⟩, ?_⟩
      · rw [byteLength_append]
        omega
      · rw [size] at walked ⊢
        exact (ih next).1 ⟨tail, walked⟩
    · rintro ⟨starts, stops, others⟩
      have cut : Between rest (start - byteLength front) := by
        apply between_append.1
        rw [← whole, Nat.add_sub_cancel' first]
        exact starts
      obtain ⟨kept, behind, rfl, keptSize⟩ := cut
      have cut' : Between behind (stop - start) := by
        apply (@between_append (front ++ kept) behind _).1
        rw [List.append_assoc, ← whole, byteLength_append, ← keptSize,
          show byteLength front + (start - byteLength front) + (stop - start) = stop by omega]
        exact stops
      obtain ⟨taken, further, rfl, takenSize⟩ := cut'
      have size : stop = byteLength (front ++ kept ++ taken) := by
        rw [byteLength_append, byteLength_append]
        omega
      have next : text = front ++ kept ++ taken ++ further := by simp [whole]
      obtain ⟨tail, walked⟩ := (ih next).2 (size ▸ others)
      rw [keptSize, splitAt?_append, Option.bind_some, takenSize, splitAt?_append, Option.bind_some,
        size, walked]
      exact ⟨_, rfl⟩

/-! ## The order of edits -/

/-- Edits inside of a text that begin at different places and are clear of each other. -/
structure Disjoint (size : Nat) (edits : List Edit) : Prop where
  inside : ∀ e ∈ edits, e.start ≤ e.stop ∧ e.stop ≤ size
  clear : edits.Pairwise fun a b => a.stop ≤ b.start ∨ b.stop ≤ a.start
  starts : (edits.map Edit.start).Nodup

theorem Disjoint.ascending {size : Nat} {edits : List Edit} (h : Disjoint size edits) :
    (Edit.sorted edits).Pairwise fun a b => a.start < b.start := by
  have perm := Edit.sorted_perm edits
  have distinct : (Edit.sorted edits).Pairwise fun a b => a.start ≠ b.start :=
    List.pairwise_map.1 ((perm.map Edit.start).nodup_iff.2 h.starts)
  exact ((sorted_pairwise edits).and distinct).imp fun both => Nat.lt_of_le_of_ne both.1 both.2

theorem Disjoint.chained {size : Nat} {edits ordered : List Edit} (h : Disjoint size edits)
    (perm : ordered.Perm edits) (ascending : ordered.Pairwise fun a b => a.start < b.start) :
    ordered.Pairwise fun a b => a.stop ≤ b.start := by
  have clear := h.clear.perm perm.symm Or.symm
  apply (ascending.and clear).imp_of_mem
  intro a b _ hb both
  have := (h.inside b (perm.subset hb)).1
  omega

theorem exists_applyAll?_iff (text : String) (edits : List Edit) :
    (∃ out, Edit.applyAll? text edits = some out) ↔
      ∀ offset, Uses (byteLength text.toList) edits offset → Between text.toList offset := by
  have cuts := @walk_isSome_iff text.toList [] text.toList (Edit.sorted edits) rfl
  have uses (offset : Nat) : offset ∈ cutsFrom (byteLength text.toList) 0 (Edit.sorted edits) ↔
      Uses (byteLength text.toList) edits offset :=
    @mem_cutsFrom _ 0 offset [] (Edit.sorted edits) (reached_nil _) (sorted_pairwise edits)
  simp only [byteLength, uses] at cuts
  rw [← cuts, Edit.applyAll?, Edit.applySorted?]
  simp

/-- Edits that overlap, run backwards and reach past the end. -/
example : Edit.applyAll? "abcdef" [⟨4, 9, "Z"⟩, ⟨1, 3, "X"⟩, ⟨2, 1, "Y"⟩] = some "aXYdZ" := by
  cbv

end BundlePrep.Text
