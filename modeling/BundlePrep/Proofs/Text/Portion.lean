import BundlePrep.Proofs.Text.Weave
import BundlePrep.Text.Edit
import Mathlib.Data.List.Nodup

/-!
# Texts in portions

A text in which some portions change is a list of ranges with what is put for them. A list of edits
that covers these ranges, in any order, puts the new contents in their places.
-/

set_option autoImplicit false

namespace BundlePrep.Text

/-- A part of a text that stays, or one with a new content. -/
inductive Portion where
  | kept (text : List Char)
  | changed (removed content : List Char)
  deriving DecidableEq, Repr

namespace Portion

def old : Portion → List Char
  | .kept text => text
  | .changed removed _ => removed

def new : Portion → List Char
  | .kept text => text
  | .changed _ content => content

/-- The ranges that change, where a text stands in front of the first portion. -/
def patches (pending : List Char) : List Portion → List Patch
  | [] => []
  | .kept text :: rest => patches (pending ++ text) rest
  | .changed removed content :: rest => ⟨pending, removed, content⟩ :: patches [] rest

def behind (pending last : List Char) : List Portion → List Char
  | [] => pending ++ last
  | .kept text :: rest => behind (pending ++ text) last rest
  | .changed _ _ :: rest => behind [] last rest

theorem joined_patches (pending last : List Char) (portions : List Portion) :
    joined (behind pending last portions) (patches pending portions) =
      pending ++ (portions.flatMap old ++ last) := by
  induction portions generalizing pending with
  | nil => rfl
  | cons portion rest ih =>
    cases portion with
    | kept text =>
      rw [patches, behind, ih]
      simp [old]
    | changed removed content =>
      rw [patches, behind, joined, ih]
      simp [old]

theorem mem_patches {pending : List Char} {portions : List Portion} {p : Patch}
    (h : p ∈ patches pending portions) : .changed p.removed p.content ∈ portions := by
  induction portions generalizing pending with
  | nil => cases h
  | cons portion rest ih =>
    cases portion with
    | kept text => exact List.mem_cons_of_mem _ (ih h)
    | changed removed content =>
      rcases List.mem_cons.1 h with rfl | h
      · exact List.mem_cons_self ..
      · exact List.mem_cons_of_mem _ (ih h)

theorem content_mem_patches {pending removed content : List Char} {portions : List Portion}
    (h : .changed removed content ∈ portions) :
    content ∈ (patches pending portions).map Patch.content := by
  induction portions generalizing pending with
  | nil => cases h
  | cons portion rest ih =>
    rcases List.mem_cons.1 h with rfl | mem
    · exact List.mem_cons_self ..
    · cases portion with
      | kept text => exact ih mem
      | changed removed' content' => exact List.mem_cons_of_mem _ (ih mem)

end Portion

theorem joined_cancel {a b : List Char} {ps : List Patch} (h : joined a ps = joined b ps) : a = b := by
  induction ps with
  | nil => exact h
  | cons p ps ih => exact ih (List.append_cancel_left (List.append_cancel_left h))

/-! ## Edits -/

def substituted (last : List Char) : List Patch → List Char
  | [] => last
  | p :: ps => p.before ++ (p.content ++ substituted last ps)

/-- The edits of the ranges of a text that begins at an offset. -/
def editsAt (offset : Nat) : List Patch → List Edit
  | [] => []
  | p :: ps =>
    let start := offset + byteLength p.before
    ⟨start, start + byteLength p.removed, String.ofList p.content⟩ ::
      editsAt (start + byteLength p.removed) ps

theorem substituted_patches (pending last : List Char) (portions : List Portion) :
    substituted (Portion.behind pending last portions) (Portion.patches pending portions) =
      pending ++ (portions.flatMap Portion.new ++ last) := by
  induction portions generalizing pending with
  | nil => rfl
  | cons portion rest ih =>
    cases portion with
    | kept text =>
      rw [Portion.patches, Portion.behind, ih]
      simp [Portion.new]
    | changed removed content =>
      rw [Portion.patches, Portion.behind, substituted, ih]
      simp [Portion.new]

theorem walk_editsAt (last : List Char) (ps : List Patch) (cursor : Nat) :
    Edit.walk (cursor + byteLength (joined last ps)) cursor (joined last ps) (editsAt cursor ps) =
      some (substituted last ps) := by
  induction ps generalizing cursor with
  | nil => rfl
  | cons p ps ih =>
    have size : cursor + byteLength (joined last (p :: ps)) =
        cursor + byteLength p.before + byteLength p.removed + byteLength (joined last ps) := by
      simp only [joined, byteLength_append]
      omega
    have start : min (max (cursor + byteLength p.before) cursor)
        (cursor + byteLength (joined last (p :: ps))) = cursor + byteLength p.before := by
      omega
    have stop : min (max (cursor + byteLength p.before + byteLength p.removed)
        (cursor + byteLength p.before)) (cursor + byteLength (joined last (p :: ps))) =
          cursor + byteLength p.before + byteLength p.removed := by
      omega
    rw [editsAt, Edit.walk]
    simp only [start, stop, Nat.add_sub_cancel_left]
    rw [size, joined, splitAt?_append]
    simp only [Option.bind_eq_bind, Option.bind_some]
    rw [splitAt?_append]
    simp only [Option.bind_some, ih]
    simp [substituted]

theorem le_start {offset : Nat} {ps : List Patch} {e : Edit} (h : e ∈ editsAt offset ps) :
    offset ≤ e.start := by
  induction ps generalizing offset with
  | nil => cases h
  | cons p ps ih =>
    rcases List.mem_cons.1 h with rfl | h
    · exact Nat.le_add_right _ _
    · have more := ih h
      omega

theorem byteLength_pos {text : List Char} (h : text ≠ []) : 0 < byteLength text := by
  obtain ⟨c, cs, rfl⟩ := List.exists_cons_of_ne_nil h
  have positive := c.utf8Size_pos
  rw [byteLength]
  omega

theorem exists_between {a b x y : List Char} (whole : a ++ x = b ++ y)
    (le : byteLength a ≤ byteLength b) : ∃ gap, b = a ++ gap ∧ x = gap ++ y := by
  rcases List.append_eq_append_iff.1 whole with ⟨gap, rfl, rfl⟩ | ⟨gap, rfl, rfl⟩
  · exact ⟨gap, rfl, rfl⟩
  · have none : gap = [] := by
      by_contra some
      have := byteLength_pos some
      rw [byteLength_append] at le
      omega
    subst none
    exact ⟨[], by simp, rfl⟩

theorem editsAt_pairwise (offset : Nat) {ps : List Patch} (h : ∀ p ∈ ps, p.removed ≠ []) :
    (editsAt offset ps).Pairwise fun a b => a.start < b.start := by
  induction ps generalizing offset with
  | nil => exact .nil
  | cons p ps ih =>
    refine .cons (fun e mem => ?_) (ih _ fun q mem => h q (List.mem_cons_of_mem p mem))
    have positive := byteLength_pos (h p (List.mem_cons_self ..))
    have behind := le_start mem
    show offset + byteLength p.before < e.start
    omega

theorem sorted_pairwise (edits : List Edit) :
    (Edit.sorted edits).Pairwise fun a b => a.start ≤ b.start :=
  (List.pairwise_mergeSort (fun a b c => by simpa using Nat.le_trans)
    (fun a b => by simpa using Nat.le_total _ _) edits).imp fun before => by simpa using before

theorem sorted_eq {edits ordered : List Edit} (perm : ordered.Perm edits)
    (ascending : ordered.Pairwise fun a b => a.start < b.start) : Edit.sorted edits = ordered := by
  have distinct : (ordered.map Edit.start).Nodup :=
    List.pairwise_map.2 (ascending.imp Nat.ne_of_lt)
  apply List.Perm.eq_of_pairwise _ (sorted_pairwise edits) (ascending.imp Nat.le_of_lt)
    ((Edit.sorted_perm edits).trans perm.symm)
  intro a b ha hb before behind
  have mem := perm.symm.subset ((Edit.sorted_perm edits).subset ha)
  exact List.inj_on_of_nodup_map distinct mem hb (Nat.le_antisymm before behind)

theorem sorted_of_perm {edits : List Edit} {offset : Nat} {ps : List Patch}
    (perm : edits.Perm (editsAt offset ps)) (h : ∀ p ∈ ps, p.removed ≠ []) :
    Edit.sorted edits = editsAt offset ps :=
  sorted_eq perm.symm (editsAt_pairwise offset h)

theorem applyAll?_of_perm {text : String} {edits : List Edit} {last : List Char} {ps : List Patch}
    (whole : text.toList = joined last ps) (perm : edits.Perm (editsAt 0 ps))
    (h : ∀ p ∈ ps, p.removed ≠ []) :
    Edit.applyAll? text edits = some (String.ofList (substituted last ps)) := by
  have walked := walk_editsAt last ps 0
  rw [Nat.zero_add] at walked
  rw [Edit.applyAll?, sorted_of_perm perm h, Edit.applySorted?, whole, walked]
  rfl

/-! ## Edits of disjoint ranges -/

def Edit.Fits (e : Edit) (text : List Char) : Prop :=
  ∃ before part behind, text = before ++ (part ++ behind) ∧ part ≠ [] ∧
    e.start = byteLength before ∧ e.stop = byteLength before + byteLength part

theorem Edit.Fits.start_lt_stop {text : List Char} {e : Edit} (h : e.Fits text) :
    e.start < e.stop := by
  obtain ⟨_, part, _, -, nonempty, start, stop⟩ := h
  have := byteLength_pos nonempty
  omega

theorem exists_editsAt {text front rest : List Char} (whole : text = front ++ rest) {es : List Edit}
    (cuts : ∀ e ∈ es, ∃ before part behind, text = before ++ (part ++ behind) ∧
      e.start = byteLength before ∧ e.stop = byteLength before + byteLength part)
    (ordered : es.Pairwise fun a b => a.stop ≤ b.start)
    (behind : ∀ e ∈ es, byteLength front ≤ e.start) :
    ∃ ps last, rest = joined last ps ∧ editsAt (byteLength front) ps = es := by
  induction es generalizing front rest with
  | nil => exact ⟨[], rest, rfl, rfl⟩
  | cons e es ih =>
    obtain ⟨first, further⟩ := List.pairwise_cons.1 ordered
    obtain ⟨before, part, after, cut, start, stop⟩ := cuts e (List.mem_cons_self ..)
    have later := behind e (List.mem_cons_self ..)
    obtain ⟨gap, rfl, same⟩ := exists_between (whole.symm.trans cut) (start ▸ later)
    rw [byteLength_append] at start stop
    have next : text = (front ++ gap ++ part) ++ after := by simp [cut]
    have ends : byteLength (front ++ gap ++ part) = e.stop := by
      rw [byteLength_append, byteLength_append, stop]
    obtain ⟨ps, last, rfl, edits⟩ := ih next
      (fun e mem => cuts e (List.mem_cons_of_mem _ mem)) further (fun e mem => ends ▸ first e mem)
    refine ⟨⟨gap, part, e.content.toList⟩ :: ps, last, same, ?_⟩
    rw [editsAt, String.ofList_toList, ← start, ← edits, ends, stop, start]
    cases e
    simp_all

theorem removed_ne_nil {offset : Nat} {ps : List Patch}
    (h : ∀ e ∈ editsAt offset ps, e.start < e.stop) : ∀ p ∈ ps, p.removed ≠ [] := by
  induction ps generalizing offset with
  | nil => simp
  | cons p ps ih =>
    obtain ⟨own, others⟩ := List.forall_mem_cons.1 h
    refine List.forall_mem_cons.2 ⟨fun none => ?_, ih others⟩
    simp [none, byteLength] at own

theorem applyAll?_of_disjoint {text : String} {es : List Edit}
    (fits : ∀ e ∈ es, e.Fits text.toList)
    (disjoint : es.Pairwise fun a b => a.stop ≤ b.start ∨ b.stop ≤ a.start) :
    ∃ out, Edit.applyAll? text es = some out := by
  have perm := Edit.sorted_perm es
  have inOrder := sorted_pairwise es
  have clear : (Edit.sorted es).Pairwise fun a b => a.stop ≤ b.start ∨ b.stop ≤ a.start :=
    disjoint.perm perm.symm Or.symm
  have chained : (Edit.sorted es).Pairwise fun a b => a.stop ≤ b.start := by
    refine (inOrder.and clear).imp_of_mem fun {a b} _ hb ⟨before, clear⟩ => ?_
    have := (fits b (perm.subset hb)).start_lt_stop
    omega
  have whole : text.toList = [] ++ text.toList := rfl
  have cuts (e : Edit) (mem : e ∈ Edit.sorted es) : ∃ before part behind,
      text.toList = before ++ (part ++ behind) ∧ e.start = byteLength before ∧
        e.stop = byteLength before + byteLength part := by
    obtain ⟨before, part, behind, cut, -, place⟩ := fits e (perm.subset mem)
    exact ⟨before, part, behind, cut, place⟩
  obtain ⟨ps, last, joined, edits⟩ := exists_editsAt whole cuts chained fun _ _ => Nat.zero_le _
  have removed := removed_ne_nil fun e (mem : e ∈ editsAt 0 ps) =>
    (fits e (perm.subset (edits ▸ mem))).start_lt_stop
  exact ⟨_, applyAll?_of_perm joined (edits ▸ perm.symm) removed⟩

theorem exists_first {text out : String} {edits : List Edit} (nonempty : edits ≠ [])
    (h : Edit.applyAll? text edits = some out) :
    ∃ e ∈ edits, (∀ other ∈ edits, e.start ≤ other.start) ∧ ∃ kept rest behind,
      text.toList = kept ++ rest ∧ byteLength kept = min e.start (byteLength text.toList) ∧
        out.toList = kept ++ (e.content.toList ++ behind) := by
  have ordered := sorted_pairwise edits
  have perm := Edit.sorted_perm edits
  rw [Edit.applyAll?, Edit.applySorted?] at h
  obtain ⟨written, walked, rfl⟩ := Option.map_eq_some_iff.1 h
  cases sorted : Edit.sorted edits with
  | nil =>
    rw [sorted] at perm
    exact absurd perm.nil_eq.symm nonempty
  | cons e es =>
    rw [sorted] at ordered perm walked
    simp only [Edit.walk, Option.bind_eq_bind, Option.bind_eq_some_iff, Option.pure_def,
      Nat.max_zero, Nat.sub_zero] at walked
    obtain ⟨⟨kept, rest⟩, first, ⟨_, after⟩, -, tail, -, same⟩ := walked
    obtain ⟨whole, size⟩ := splitAt?_eq_some first
    refine ⟨e, perm.subset (List.mem_cons_self ..), fun other mem => ?_, kept, rest, tail, whole,
      size.symm, ?_⟩
    · rcases List.mem_cons.1 (perm.symm.subset mem) with rfl | mem
      · exact Nat.le_refl _
      · exact (List.pairwise_cons.1 ordered).1 other mem
    · rw [String.toList_ofList, ← Option.some.inj same, List.append_assoc]

end BundlePrep.Text
