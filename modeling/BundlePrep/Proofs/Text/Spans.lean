import BundlePrep.Proofs.Text.Portion

/-!
# Spans replaced on the lines of a text

Spans of a text are found in its lines by position and replaced there from the last to the first. The
lines keep their endings, and their contents are those of the text with the new ones in place of the
spans. Where no span reaches over a line ending, this is what the edits of the spans give.

Written out and read again, the lines are the same but for one thing: a carriage return that comes to
stand in front of a line feed becomes a part of the line ending.
-/

set_option autoImplicit false

namespace BundlePrep.Text

namespace Document

def endings (d : Document) : List LineEnding := d.lines.map (·.ending)

/-- The contents of all lines, one behind the other. -/
def content (d : Document) : List Char := d.lines.flatMap (·.content)

structure Proper (d : Document) : Prop where
  unbroken : ∀ line ∈ d.lines, '\n' ∉ line.content
  ended : ∃ before, d.endings = before ++ [.none] ∧ .none ∉ before

end Document

def unended (text : List Char) : List Char := (Document.ofText text).content

/-- An offset between characters and not inside a line ending. -/
def CutsAt (text : List Char) (offset : Nat) : Prop :=
  ∃ front behind, text = front ++ behind ∧ offset = byteLength front ∧ Apart front behind

/-- Edits of spans that follow each other, with contents without line feeds. Spans may be empty. -/
structure Spans (text : List Char) (edits : List Edit) : Prop where
  forward : ∀ e ∈ edits, e.start ≤ e.stop
  ordered : edits.Pairwise fun a b => a.stop ≤ b.start
  cuts : ∀ e ∈ edits, CutsAt text e.start ∧ CutsAt text e.stop
  unbroken : ∀ e ∈ edits, '\n' ∉ e.content.toList

instance (a b : List Char) : Decidable (Apart a b) :=
  inferInstanceAs (Decidable (a.getLast? = some '\r' → b.head? ≠ some '\n'))

theorem cutsAt_iff {text : List Char} {offset : Nat} :
    CutsAt text offset ↔ (splitAt? offset text).any fun parts => Apart parts.1 parts.2 := by
  constructor
  · rintro ⟨front, behind, rfl, rfl, apart⟩
    rw [splitAt?_append]
    simpa using apart
  · intro h
    obtain ⟨isSome, apart⟩ := (Option.any_eq_true_iff_get _ _).1 h
    obtain ⟨whole, size⟩ := splitAt?_eq_some (Option.some_get isSome).symm
    exact ⟨_, _, whole, size, of_decide_eq_true apart⟩

instance (text : List Char) (offset : Nat) : Decidable (CutsAt text offset) :=
  decidable_of_iff _ cutsAt_iff.symm

instance (text : List Char) (edits : List Edit) : Decidable (Spans text edits) :=
  decidable_of_iff
    ((∀ e ∈ edits, e.start ≤ e.stop) ∧ (edits.Pairwise fun a b => a.stop ≤ b.start) ∧
      (∀ e ∈ edits, CutsAt text e.start ∧ CutsAt text e.stop) ∧
      ∀ e ∈ edits, '\n' ∉ e.content.toList)
    ⟨fun ⟨forward, ordered, cuts, unbroken⟩ => ⟨forward, ordered, cuts, unbroken⟩,
      fun h => ⟨h.forward, h.ordered, h.cuts, h.unbroken⟩⟩

/-- The lines of a text with its spans replaced by their positions, from the last to the first. -/
def replaceSpans (text : List Char) (edits : List Edit) : Document :=
  edits.foldr (fun e d => d.replace ((LineIndex.ofText text).range e.start e.stop) e.content.toList)
    (Document.ofText text)

/-- The text around ranges, without its line endings, with the new contents for the ranges. -/
def contentAround (last : List Char) : List Patch → List Char
  | [] => unended last
  | p :: ps => unended p.before ++ (p.content ++ contentAround last ps)

/-! ## What one replacement preserves -/

namespace Document

theorem endings_replace (d : Document) (range : Range) (content : List Char) :
    (d.replace range content).endings = d.endings := by
  refine List.ext_getElem (by simp [endings, replace]) fun i h h' => ?_
  simp only [endings, replace, List.getElem_map, List.getElem_mapIdx]
  split_ifs <;> rfl

theorem mem_before {column : Nat} {line : List Char} {c : Char} (h : c ∈ before column line) :
    c ∈ line := by
  rw [before] at h
  cases found : splitAt? (min column (byteLength line)) line with
  | none => simpa [found] using h
  | some parts =>
    rw [(splitAt?_eq_some found).1]
    exact List.mem_append_left _ (by simpa [found] using h)

theorem mem_after {column : Nat} {line : List Char} {c : Char} (h : c ∈ after column line) :
    c ∈ line := by
  rw [after] at h
  cases found : splitAt? (min column (byteLength line)) line with
  | none => simp [found] at h
  | some parts =>
    rw [(splitAt?_eq_some found).1]
    exact List.mem_append_right _ (by simpa [found] using h)

theorem Proper.replace {d : Document} (h : d.Proper) (range : Range) {content : List Char}
    (unbroken : '\n' ∉ content) : (d.replace range content).Proper := by
  have line (index : Nat) : '\n' ∉ (d.line? index).getD [] := by
    rw [line?]
    cases found : d.lines[index]? with
    | none => simp
    | some line => exact h.unbroken line (List.mem_of_getElem? found)
  refine ⟨fun changed mem => ?_, by rw [endings_replace]; exact h.ended⟩
  obtain ⟨i, hi, rfl⟩ := List.mem_iff_getElem.1 mem
  simp only [Document.replace, List.getElem_mapIdx]
  split_ifs
  · simp
  · simp only [List.mem_append, not_or]
    exact ⟨⟨fun inside => line _ (mem_before inside), unbroken⟩,
      fun inside => line _ (mem_after inside)⟩
  · exact h.unbroken _ (List.getElem_mem _)

end Document

/-! ## Lines that are read again -/

theorem endings_ofText (text : List Char) :
    (Document.ofText text).endings = endings text ++ [.none] := by
  simp [Document.endings, Document.ofText, splitLines_eq, endings]

theorem mem_heads {text : List Char} {line : Line} (h : line ∈ heads text) :
    '\n' ∉ line.content ∧ line.ending ≠ .none := by
  unfold heads at h
  fun_induction cut text generalizing line with
  | case1 => cases h
  | case2 cs ih | case3 cs ih =>
    rcases List.mem_cons.1 h with rfl | h
    · simp
    · exact ih h
  | case4 => cases h
  | case5 c cs _ lf first more found ih =>
    rw [found] at ih
    rcases List.mem_cons.1 h with rfl | h
    · have own := ih (List.mem_cons_self ..)
      exact ⟨by simp [own.1, Ne.symm lf], own.2⟩
    · exact ih (List.mem_cons_of_mem _ h)

theorem lineFeed_not_mem_lastLine (text : List Char) : '\n' ∉ lastLine text := by
  unfold lastLine
  fun_induction cut text with
  | case1 => simp
  | case2 cs ih | case3 cs ih => exact ih
  | case4 c cs _ lf _ ih => simp [ih, Ne.symm lf]
  | case5 c cs _ _ _ _ _ ih => exact ih

theorem proper_ofText (text : List Char) : (Document.ofText text).Proper := by
  refine ⟨fun line mem => ?_, endings text, endings_ofText text, fun mem => ?_⟩
  · rw [Document.ofText, splitLines_eq] at mem
    rcases List.mem_append.1 mem with mem | mem
    · exact (mem_heads mem).1
    · obtain rfl := List.mem_singleton.1 mem
      exact lineFeed_not_mem_lastLine text
  · obtain ⟨line, mem, none⟩ := List.mem_map.1 mem
    exact (mem_heads mem).2 none

def Line.reread (line : Line) : LineEnding :=
  if line.ending = .lineFeed ∧ line.content.getLast? = some '\r' then .carriageReturnLineFeed
  else line.ending

theorem splitLines_append {content rest : List Char} (unbroken : '\n' ∉ content)
    (apart : Apart content rest) :
    Document.splitLines (content ++ rest) = prepend content (Document.splitLines rest) := by
  have read (text : List Char) : Document.splitLines text = glue text [⟨[], .none⟩] :=
    congrArg Document.lines (ofText_eq_glue text)
  rw [read, read, glue_append rest apart, glue_eq_prepend (heads_eq_nil_iff.2 unbroken)]

theorem splitLines_line {line : Line} (unbroken : '\n' ∉ line.content)
    (ended : line.ending ≠ .none) (rest : List Char) :
    ∃ content, Document.splitLines (line.content ++ line.ending.text ++ rest) =
      ⟨content, line.reread⟩ :: Document.splitLines rest := by
  obtain ⟨content, ending⟩ := line
  have read (own : List Char) (unbroken : '\n' ∉ own) (apart : Apart own (ending.text ++ rest)) :
      ∃ content, Document.splitLines (own ++ (ending.text ++ rest)) =
        ⟨content, ending⟩ :: Document.splitLines rest := by
    rw [splitLines_append unbroken apart]
    cases ending with
    | none => exact absurd rfl ended
    | lineFeed | carriageReturnLineFeed => exact ⟨own ++ [], rfl⟩
  rw [List.append_assoc, Line.reread]
  split
  next merged =>
    obtain ⟨rfl, last⟩ := merged
    obtain ⟨own, rfl⟩ := List.getLast?_eq_some_iff.1 last
    rw [List.append_assoc, splitLines_append (fun mem => unbroken (List.mem_append_left _ mem))
      (fun _ head => by cases head)]
    exact ⟨own ++ [], rfl⟩
  next kept =>
    refine read content unbroken fun last head => ?_
    cases ending with
    | none => exact absurd rfl ended
    | lineFeed => exact kept ⟨rfl, last⟩
    | carriageReturnLineFeed => cases head

theorem endings_reread {d : Document} (h : d.Proper) :
    (Document.ofText d.toText).endings = d.lines.map Line.reread := by
  obtain ⟨lines⟩ := d
  obtain ⟨unbroken, before, ended, others⟩ := h
  simp only [Document.endings, Document.ofText, Document.toText] at *
  induction lines generalizing before with
  | nil => simp at ended
  | cons line lines ih =>
    obtain ⟨own, further⟩ := List.forall_mem_cons.1 unbroken
    cases before with
    | nil =>
      obtain ⟨none, rfl⟩ : line.ending = .none ∧ lines = [] := by simpa using ended
      have apart : Apart line.content [] := fun _ => by simp
      have whole := splitLines_append own apart
      rw [List.append_nil] at whole
      simp [none, LineEnding.text, whole, Document.splitLines, prepend, Line.reread]
    | cons first before =>
      rw [List.map_cons, List.cons_append] at ended
      obtain ⟨rfl, tail⟩ := List.cons.inj ended
      obtain ⟨other, others⟩ := List.ne_and_not_mem_of_not_mem_cons others
      obtain ⟨content, read⟩ := splitLines_line own other.symm
        (lines.flatMap fun line => line.content ++ line.ending.text)
      rw [List.flatMap_cons, read, List.map_cons, ih further before tail others]
      rfl

theorem endings_reread_eq_iff {d : Document} (h : d.Proper) :
    (Document.ofText d.toText).endings = d.endings ↔
      ∀ line ∈ d.lines, line.ending = .lineFeed → line.content.getLast? ≠ some '\r' := by
  rw [endings_reread h, Document.endings, List.map_inj_left]
  refine forall₂_congr fun line _ => ?_
  rw [Line.reread]
  constructor
  · intro same feed last
    rw [if_pos ⟨feed, last⟩, feed] at same
    cases same
  · intro apart
    rw [if_neg fun merged => apart merged.1 merged.2]

/-! ## The spans of a text -/

theorem CutsAt.apart {text front behind : List Char} (h : CutsAt text (byteLength front))
    (whole : text = front ++ behind) : Apart front behind := by
  obtain ⟨front', behind', same, size, apart⟩ := h
  have parts := splitAt?_append front behind
  rw [← whole, same, size, splitAt?_append] at parts
  obtain ⟨rfl, rfl⟩ := Prod.mk.inj (Option.some.inj parts)
  exact apart

theorem clear_of_cutsAt {text front last : List Char} {ps : List Patch}
    (whole : text = front ++ joined last ps) (start : Apart front (joined last ps))
    (cuts : ∀ e ∈ editsAt (byteLength front) ps, CutsAt text e.start ∧ CutsAt text e.stop) :
    Clear front last ps := by
  induction ps generalizing front with
  | nil => exact start
  | cons p ps ih =>
    obtain ⟨own, others⟩ := List.forall_mem_cons.1 cuts
    simp only [← byteLength_append] at own others
    have first : text = front ++ p.before ++ (p.removed ++ joined last ps) := by
      rw [whole, joined, List.append_assoc]
    have second : text = front ++ p.before ++ p.removed ++ joined last ps := by
      rw [first, List.append_assoc (front ++ p.before)]
    exact ⟨start, own.1.apart first, ih second (own.2.apart second) others⟩

theorem Spans.exists_patches {text : List Char} {edits : List Edit} (h : Spans text edits) :
    ∃ last ps, text = joined last ps ∧ editsAt 0 ps = edits ∧ Clear [] last ps := by
  have parts (e : Edit) (mem : e ∈ edits) : ∃ before part behind,
      text = before ++ (part ++ behind) ∧ e.start = byteLength before ∧
        e.stop = byteLength before + byteLength part := by
    obtain ⟨⟨before, rest, whole, start, -⟩, ⟨front, behind, whole', stop, -⟩⟩ := h.cuts e mem
    obtain ⟨part, rfl, rfl⟩ := exists_between (whole.symm.trans whole')
      (start ▸ stop ▸ h.forward e mem)
    exact ⟨before, part, behind, whole, start, by rw [stop, byteLength_append]⟩
  obtain ⟨ps, last, whole, same⟩ :=
    exists_editsAt (List.nil_append text).symm parts h.ordered fun _ _ => Nat.zero_le _
  refine ⟨last, ps, whole, same, clear_of_cutsAt whole (fun last => by cases last) ?_⟩
  intro e mem
  exact h.cuts e (same ▸ mem)

theorem ranges_eq {text front last : List Char} {ps : List Patch}
    (whole : text = front ++ joined last ps) :
    ranges front ps = (editsAt (byteLength front) ps).map fun e =>
      ((LineIndex.ofText text).range e.start e.stop, e.content.toList) := by
  induction ps generalizing front with
  | nil => rfl
  | cons p ps ih =>
    have first : text = front ++ p.before ++ (p.removed ++ joined last ps) := by
      rw [whole, joined, List.append_assoc]
    have second : text = front ++ p.before ++ p.removed ++ joined last ps := by
      rw [first, List.append_assoc (front ++ p.before)]
    have start := position_append (front ++ p.before) (p.removed ++ joined last ps)
    have stop := position_append (front ++ p.before ++ p.removed) (joined last ps)
    rw [← first] at start
    rw [← second] at stop
    simp only [ranges, editsAt, List.map_cons, ← byteLength_append, LineIndex.range, start, stop,
      String.toList_ofList]
    rw [ih second]
    rfl

theorem replaceSpans_eq {last : List Char} {ps : List Patch} (clear : Clear [] last ps) :
    replaceSpans (joined last ps) (editsAt 0 ps) = ⟨wovenLines last ps⟩ := by
  have replaced := foldr_replace clear
  rw [List.nil_append, glue_nil, ranges_eq (List.nil_append _).symm, List.foldr_map] at replaced
  exact replaced

/-! ## Contents -/

theorem content_glue (text : List Char) {lines : List Line} (h : lines ≠ []) :
    (Document.mk (glue text lines)).content = unended text ++ (Document.mk lines).content := by
  cases lines with
  | nil => exact absurd rfl h
  | cons line lines =>
    simp [glue, unended, Document.content, Document.ofText, splitLines_eq]

theorem content_prepend (text : List Char) {lines : List Line} (h : lines ≠ []) :
    (Document.mk (prepend text lines)).content = text ++ (Document.mk lines).content := by
  cases lines with
  | nil => exact absurd rfl h
  | cons line lines => simp [prepend, Document.content]

theorem content_owe (debt : List LineEnding) (lines : List Line) (h : lines ≠ []) :
    (Document.mk (owe debt lines)).content = (Document.mk lines).content := by
  induction debt generalizing lines with
  | nil => rfl
  | cons ending debt ih =>
    cases lines with
    | nil => exact absurd rfl h
    | cons line lines =>
      have rest := ih (⟨[], line.ending⟩ :: lines) (by simp)
      simp only [Document.content, List.flatMap_cons, List.nil_append] at rest ⊢
      rw [owe, List.flatMap_cons, rest]

theorem content_wovenLines (last : List Char) (ps : List Patch) :
    (Document.mk (wovenLines last ps)).content = contentAround last ps := by
  induction ps with
  | nil =>
    rw [wovenLines, content_glue last (by simp)]
    simp [contentAround, Document.content]
  | cons p ps ih =>
    have behind := owe_ne_nil (endings p.removed) (wovenLines_ne_nil last ps)
    rw [wovenLines, content_glue _ (prepend_ne_nil _ behind), content_prepend _ behind,
      content_owe _ _ (wovenLines_ne_nil last ps), ih, contentAround]

/-! ## Spans of one line each -/

theorem weave_of_unbroken {last : List Char} {ps : List Patch}
    (h : ∀ p ∈ ps, endings p.removed = []) : weave last [] ps = substituted last ps := by
  induction ps with
  | nil => simp [weave, settle_nil, substituted]
  | cons p ps ih =>
    obtain ⟨own, others⟩ := List.forall_mem_cons.1 h
    simp [weave, settle_nil, own, ih others, substituted]

theorem endings_removed {text last : List Char} (front : List Char) {ps : List Patch}
    (whole : text = front ++ joined last ps)
    (level : ∀ e ∈ editsAt (byteLength front) ps, ((LineIndex.ofText text).position e.start).line =
      ((LineIndex.ofText text).position e.stop).line) :
    ∀ p ∈ ps, endings p.removed = [] := by
  have lines : ∀ r ∈ ranges front ps, r.1.start.line = r.1.stop.line := by
    rw [ranges_eq whole]
    intro r mem
    obtain ⟨e, edit, rfl⟩ := List.mem_map.1 mem
    exact level e edit
  clear level whole
  induction ps generalizing front with
  | nil => simp
  | cons p ps ih =>
    obtain ⟨own, others⟩ := List.forall_mem_cons.1 lines
    refine List.forall_mem_cons.2 ⟨?_, ih _ others⟩
    have none : p.removed.count '\n' = 0 := by
      simp only [positionOf, length_heads, List.count_append] at own
      omega
    rw [endings, heads_eq_nil_iff.2 (List.count_eq_zero.1 none), List.map_nil]

theorem Spans.sorted {text : List Char} {edits : List Edit} (h : Spans text edits) :
    Edit.sorted edits = edits := by
  refine List.mergeSort_of_pairwise (h.ordered.imp_of_mem fun {a b} mem _ before => ?_)
  have := h.forward a mem
  simp only [decide_eq_true_eq]
  omega

theorem proper_replaceSpans {text : List Char} {edits : List Edit}
    (unbroken : ∀ e ∈ edits, '\n' ∉ e.content.toList) : (replaceSpans text edits).Proper := by
  induction edits with
  | nil => exact proper_ofText text
  | cons e edits ih =>
    obtain ⟨own, others⟩ := List.forall_mem_cons.1 unbroken
    exact (ih others).replace _ own

theorem endings_replaceSpans (text : List Char) (edits : List Edit) :
    (replaceSpans text edits).endings = (Document.ofText text).endings := by
  induction edits with
  | nil => rfl
  | cons e edits ih => exact (Document.endings_replace ..).trans ih

/-- Spans that are replaced by their positions leave the endings of all lines. The contents are those
around the spans, with the new ones in their places. The text that is made of the lines has the same
line endings unless a carriage return has come to stand in front of a line feed. Spans of one line each
are replaced as by their edits. -/
theorem replaced_spans {text : String} {edits : List Edit} (spans : Spans text.toList edits) :
    (replaceSpans text.toList edits).endings = (Document.ofText text.toList).endings ∧
    (∃ last ps, text.toList = joined last ps ∧ editsAt 0 ps = edits ∧
      (replaceSpans text.toList edits).content = contentAround last ps) ∧
    ((Document.ofText (replaceSpans text.toList edits).toText).endings =
        (Document.ofText text.toList).endings ↔
      ∀ line ∈ (replaceSpans text.toList edits).lines,
        line.ending = .lineFeed → line.content.getLast? ≠ some '\r') ∧
    ((∀ e ∈ edits, ((LineIndex.ofText text.toList).position e.start).line =
        ((LineIndex.ofText text.toList).position e.stop).line) →
      Edit.applyAll? text edits =
        some (String.ofList (replaceSpans text.toList edits).toText)) := by
  obtain ⟨last, ps, whole, same, clear⟩ := spans.exists_patches
  have lines : replaceSpans text.toList edits = ⟨wovenLines last ps⟩ := by
    rw [whole, ← same, replaceSpans_eq clear]
  refine ⟨endings_replaceSpans _ _, ⟨last, ps, whole, same, ?_⟩, ?_, fun level => ?_⟩
  · rw [lines, content_wovenLines]
  · rw [← endings_replaceSpans text.toList edits]
    exact endings_reread_eq_iff (proper_replaceSpans spans.unbroken)
  · have walked := walk_editsAt last ps 0
    have unbroken : ∀ p ∈ ps, endings p.removed = [] :=
      endings_removed [] whole fun e mem => level e (same ▸ mem)
    have written := toText_wovenLines last [] ps
    rw [owe, weave_of_unbroken unbroken] at written
    rw [Nat.zero_add, same, ← whole] at walked
    rw [Edit.applyAll?, spans.sorted, Edit.applySorted?, walked, lines, written]
    rfl

theorem three_spans_replaced :
    Spans "ab\r\ncd\ne".toList [⟨0, 1, "X"⟩, ⟨1, 1, "Y"⟩, ⟨5, 6, "Z"⟩] ∧
      (replaceSpans "ab\r\ncd\ne".toList [⟨0, 1, "X"⟩, ⟨1, 1, "Y"⟩, ⟨5, 6, "Z"⟩]).endings =
        [.carriageReturnLineFeed, .lineFeed, .none] ∧
      Edit.applyAll? "ab\r\ncd\ne" [⟨0, 1, "X"⟩, ⟨1, 1, "Y"⟩, ⟨5, 6, "Z"⟩] =
        some "XYb\r\ncZ\ne" := by
  have spans : Spans "ab\r\ncd\ne".toList [⟨0, 1, "X"⟩, ⟨1, 1, "Y"⟩, ⟨5, 6, "Z"⟩] := by decide
  have replaced := replaced_spans spans
  refine ⟨spans, replaced.1.trans (by decide), (replaced.2.2.2 (by decide)).trans ?_⟩
  decide

/-- A carriage return that stands alone comes to stand in front of the line feed of the span behind it. -/
theorem carriage_return_merged :
    Spans "\rX\nY".toList [⟨1, 4, ""⟩] ∧
      (Document.ofText "\rX\nY".toList).endings = [.lineFeed, .none] ∧
      (replaceSpans "\rX\nY".toList [⟨1, 4, ""⟩]).toText = "\r\n".toList ∧
      (Document.ofText (replaceSpans "\rX\nY".toList [⟨1, 4, ""⟩]).toText).endings =
        [.carriageReturnLineFeed, .none] := by
  decide

end BundlePrep.Text
