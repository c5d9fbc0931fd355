import BundlePrep.Proofs.Text.Characters
import BundlePrep.Text.Document
import Mathlib.Data.List.Basic

/-!
# Texts in front of lines

A text in front of some lines adds its complete lines to them, and what is behind its last line
feed to the first of them. The position of an offset counts the same lines and bytes, so that a
range of a document is cut where the text was: replacing it leaves the lines before it as they are
and gives the line endings of the range to the lines behind it.
-/

set_option autoImplicit false

namespace BundlePrep.Text

def cut : List Char → List Line × List Char
  | [] => ([], [])
  | '\r' :: '\n' :: cs => (⟨[], .carriageReturnLineFeed⟩ :: (cut cs).1, (cut cs).2)
  | '\n' :: cs => (⟨[], .lineFeed⟩ :: (cut cs).1, (cut cs).2)
  | c :: cs =>
    match (cut cs).1 with
    | [] => ([], c :: (cut cs).2)
    | line :: lines => ({ line with content := c :: line.content } :: lines, (cut cs).2)

def heads (text : List Char) : List Line := (cut text).1

def lastLine (text : List Char) : List Char := (cut text).2

def endings (text : List Char) : List LineEnding := (heads text).map (·.ending)

def glue (text : List Char) : List Line → List Line
  | [] => heads text
  | line :: lines => heads text ++ { line with content := lastLine text ++ line.content } :: lines

def prepend (text : List Char) : List Line → List Line
  | [] => []
  | line :: lines => { line with content := text ++ line.content } :: lines

def owe : List LineEnding → List Line → List Line
  | [], lines => lines
  | _ :: _, [] => []
  | ending :: more, line :: lines =>
    ⟨line.content, ending⟩ :: owe more (⟨[], line.ending⟩ :: lines)

/-- Two texts that are not cut inside a line ending. -/
def Apart (a b : List Char) : Prop := a.getLast? = some '\r' → b.head? ≠ some '\n'

def positionOf (text : List Char) : Position := ⟨(heads text).length, byteLength (lastLine text)⟩

theorem Apart.left {a b c : List Char} (h : Apart a (b ++ c)) : Apart a b := by
  intro last head
  exact h last (by rw [List.head?_append, head]; rfl)

/-! ## Lines of a text -/

theorem splitLines_eq (text : List Char) :
    Document.splitLines text = heads text ++ [⟨lastLine text, .none⟩] := by
  unfold heads lastLine
  fun_induction cut text with
  | case1 => rfl
  | case2 cs ih => simp [Document.splitLines, ih]
  | case3 cs ih => simp [Document.splitLines, ih]
  | case4 c cs crlf lf none ih =>
    rw [Document.splitLines, ih, none]
    · rfl
    · exact crlf
    · exact lf
  | case5 c cs crlf lf line lines some ih =>
    rw [Document.splitLines, ih, some]
    · rfl
    · exact crlf
    · exact lf

theorem ofText_eq_glue (text : List Char) : Document.ofText text = ⟨glue text [⟨[], .none⟩]⟩ := by
  simp [Document.ofText, splitLines_eq, glue]

theorem toText_append (a b : List Line) :
    Document.toText ⟨a ++ b⟩ = Document.toText ⟨a⟩ ++ Document.toText ⟨b⟩ := by
  simp [Document.toText]

theorem toText_heads (text : List Char) : Document.toText ⟨heads text⟩ ++ lastLine text = text := by
  have whole := Document.toText_ofText text
  rw [Document.ofText, splitLines_eq, toText_append] at whole
  simpa [Document.toText, LineEnding.text] using whole

theorem toText_glue (text : List Char) {lines : List Line} (h : lines ≠ []) :
    Document.toText ⟨glue text lines⟩ = text ++ Document.toText ⟨lines⟩ := by
  cases lines with
  | nil => exact absurd rfl h
  | cons line lines =>
    rw [glue, toText_append]
    conv => rhs; rw [← toText_heads text]
    simp [Document.toText]

theorem toText_prepend (text : List Char) {lines : List Line} (h : lines ≠ []) :
    Document.toText ⟨prepend text lines⟩ = text ++ Document.toText ⟨lines⟩ := by
  cases lines with
  | nil => exact absurd rfl h
  | cons line lines => simp [prepend, Document.toText]

theorem glue_ne_nil (text : List Char) {lines : List Line} (h : lines ≠ []) :
    glue text lines ≠ [] := by
  cases lines with
  | nil => exact absurd rfl h
  | cons line lines => simp [glue]

theorem prepend_ne_nil (text : List Char) {lines : List Line} (h : lines ≠ []) :
    prepend text lines ≠ [] := by
  cases lines with
  | nil => exact absurd rfl h
  | cons line lines => simp [prepend]

theorem owe_ne_nil (debt : List LineEnding) {lines : List Line} (h : lines ≠ []) :
    owe debt lines ≠ [] := by
  cases lines with
  | nil => exact absurd rfl h
  | cons line lines => cases debt <;> simp [owe]

theorem owe_append (a b : List LineEnding) (lines : List Line) :
    owe (a ++ b) lines = owe a (owe b lines) := by
  induction a generalizing lines with
  | nil => rfl
  | cons ending a ih =>
    cases lines with
    | nil => cases b <;> rfl
    | cons line lines =>
      cases b with
      | nil => simp [owe]
      | cons other b => simp [owe, ih]

theorem toText_owe (debt : List LineEnding) (line : Line) (lines : List Line) :
    Document.toText ⟨owe debt (line :: lines)⟩ =
      line.content ++ debt.flatMap LineEnding.text ++ line.ending.text ++
        Document.toText ⟨lines⟩ := by
  induction debt generalizing line with
  | nil => simp [owe, Document.toText]
  | cons ending debt ih =>
    have rest := ih ⟨[], line.ending⟩
    simp only [Document.toText, List.nil_append] at rest
    simp only [owe, Document.toText, List.flatMap_cons, rest, List.append_assoc]

theorem owe_prepend (debt : List LineEnding) (text : List Char) (lines : List Line) :
    owe debt (prepend text lines) = prepend text (owe debt lines) := by
  cases lines with
  | nil => cases debt <;> rfl
  | cons line lines => cases debt <;> rfl

theorem glue_eq_prepend {text : List Char} (h : heads text = []) (lines : List Line) :
    glue text lines = prepend text lines := by
  have whole := toText_heads text
  rw [h] at whole
  cases lines with
  | nil => exact h
  | cons line lines =>
    simp only [Document.toText, List.flatMap_nil, List.nil_append] at whole
    rw [glue, h, whole, prepend, List.nil_append]

theorem length_heads (text : List Char) : (heads text).length = text.count '\n' := by
  unfold heads
  fun_induction cut text with
  | case1 => rfl
  | case2 cs ih => simp [ih]
  | case3 cs ih => simp [ih]
  | case4 c cs _ lf none ih => simp_all
  | case5 c cs _ lf line lines some ih => simp_all

theorem heads_eq_nil_iff {text : List Char} : heads text = [] ↔ '\n' ∉ text := by
  rw [← List.length_eq_zero_iff, length_heads, List.count_eq_zero]

theorem lastLine_plain {text : List Char} (h : '\n' ∉ text) : lastLine text = text := by
  have whole := toText_heads text
  rwa [heads_eq_nil_iff.2 h] at whole

theorem glue_nil (lines : List Line) : glue [] lines = lines := by
  cases lines <;> rfl

theorem glue_carriageReturnLineFeed (cs : List Char) (lines : List Line) :
    glue ('\r' :: '\n' :: cs) lines = ⟨[], .carriageReturnLineFeed⟩ :: glue cs lines := by
  cases lines <;> simp [glue, heads, lastLine, cut]

theorem glue_lineFeed (cs : List Char) (lines : List Line) :
    glue ('\n' :: cs) lines = ⟨[], .lineFeed⟩ :: glue cs lines := by
  cases lines <;> simp [glue, heads, lastLine, cut]

theorem glue_char {c : Char} {cs : List Char} (lf : c ≠ '\n')
    (crlf : c = '\r' → cs.head? ≠ some '\n') (lines : List Line) :
    glue (c :: cs) lines = prepend [c] (glue cs lines) := by
  have step : cut (c :: cs) = match (cut cs).1 with
      | [] => ([], c :: (cut cs).2)
      | line :: lines => ({ line with content := c :: line.content } :: lines, (cut cs).2) := by
    rw [cut]
    · rintro cs' rfl rfl
      exact crlf rfl rfl
    · exact lf
  cases found : (cut cs).1 with
  | nil => cases lines <;> simp [glue, heads, lastLine, step, found, prepend]
  | cons line more => cases lines <;> simp [glue, heads, lastLine, step, found, prepend]

theorem glue_append {a : List Char} (b : List Char)
    (apart : a.getLast? = some '\r' → b.head? ≠ some '\n') (lines : List Line) :
    glue (a ++ b) lines = glue a (glue b lines) := by
  have further {c : Char} {cs : List Char}
      (h : (c :: cs).getLast? = some '\r' → b.head? ≠ some '\n') :
      cs.getLast? = some '\r' → b.head? ≠ some '\n' := by
    intro last
    cases cs with
    | nil => simp at last
    | cons d cs => exact h (by simpa using last)
  fun_induction cut a with
  | case1 => rw [List.nil_append, glue_nil]
  | case2 cs ih =>
    rw [List.cons_append, List.cons_append, glue_carriageReturnLineFeed,
      glue_carriageReturnLineFeed, ih (further (further apart))]
  | case3 cs ih => rw [List.cons_append, glue_lineFeed, glue_lineFeed, ih (further apart)]
  | case4 c cs crlf lf _ ih | case5 c cs crlf lf _ _ _ ih =>
    have whole : c = '\r' → (cs ++ b).head? ≠ some '\n' := by
      rintro rfl
      cases cs with
      | nil => exact apart rfl
      | cons d cs =>
        intro head
        obtain rfl : d = '\n' := by simpa using head
        exact crlf cs rfl rfl
    have alone : c = '\r' → cs.head? ≠ some '\n' := by
      rintro rfl head
      cases cs with
      | nil => simp at head
      | cons d cs =>
        obtain rfl : d = '\n' := by simpa using head
        exact crlf cs rfl rfl
    rw [List.cons_append, glue_char lf whole, glue_char lf alone, ih (further apart)]

/-! ## Positions -/

theorem lt_of_mem_lineStarts {offset x : Nat} {text : List Char} (h : x ∈ lineStarts offset text) :
    offset < x := by
  induction text generalizing offset with
  | nil => cases h
  | cons c cs ih =>
    rw [lineStarts] at h
    split at h
    · rcases List.mem_cons.1 h with rfl | h
      · exact Nat.lt_succ_self _
      · exact Nat.lt_of_succ_lt (ih h)
    · exact Nat.lt_of_le_of_lt (Nat.le_add_right _ _) (ih h)

theorem locate_of_lt {offset line start : Nat} {starts : List Nat} (h : ∀ x ∈ starts, offset < x) :
    locate offset starts line start = ⟨line, offset - start⟩ := by
  cases starts with
  | nil => rfl
  | cons next starts =>
    have := h next (by simp)
    rw [locate, if_neg (by omega)]

theorem utf8Size_lineFeed : ('\n').utf8Size = 1 := by decide

theorem utf8Size_carriageReturn : ('\r').utf8Size = 1 := by decide

theorem locate_lineStarts (p t : List Char) (offset line start : Nat) (h : start ≤ offset) :
    locate (offset + byteLength p) (lineStarts offset (p ++ t)) line start =
      ⟨line + (heads p).length,
        (if heads p = [] then offset - start else 0) + byteLength (lastLine p)⟩ := by
  unfold heads lastLine
  fun_induction cut p generalizing offset line start with
  | case1 =>
    rw [List.nil_append, byteLength, Nat.add_zero,
      locate_of_lt fun x mem => lt_of_mem_lineStarts mem]
    simp
  | case2 cs ih =>
    have rest := ih (offset + 1 + 1) (line + 1) (offset + 1 + 1) (Nat.le_refl _)
    have size : offset + byteLength ('\r' :: '\n' :: cs) = offset + 1 + 1 + byteLength cs := by
      simp only [byteLength, utf8Size_lineFeed, utf8Size_carriageReturn]
      omega
    rw [List.cons_append, List.cons_append, lineStarts, if_neg (by decide), lineStarts, if_pos rfl,
      utf8Size_carriageReturn, size, locate, if_pos (Nat.le_add_right _ _), rest]
    simp [Nat.add_assoc, Nat.add_comm]
  | case3 cs ih =>
    have rest := ih (offset + 1) (line + 1) (offset + 1) (Nat.le_refl _)
    have size : offset + byteLength ('\n' :: cs) = offset + 1 + byteLength cs := by
      simp only [byteLength, utf8Size_lineFeed]
      omega
    rw [List.cons_append, lineStarts, if_pos rfl, size, locate, if_pos (Nat.le_add_right _ _), rest]
    simp [Nat.add_assoc, Nat.add_comm]
  | case4 c cs crlf lf none ih | case5 c cs crlf lf _ _ none ih =>
    have rest := ih (offset + c.utf8Size) line start (Nat.le_add_right_of_le h)
    rw [List.cons_append, lineStarts, if_neg lf, byteLength, ← Nat.add_assoc, rest, none]
    simp [byteLength]
    try omega

theorem position_append (p t : List Char) :
    (LineIndex.ofText (p ++ t)).position (byteLength p) = positionOf p := by
  have whole := locate_lineStarts p t 0 0 0 (Nat.le_refl 0)
  simp only [Nat.zero_add, Nat.sub_self, ite_self] at whole
  exact whole

/-! ## Replacing a range -/

theorem before_append (a b : List Char) : Document.before (byteLength a) (a ++ b) = a := by
  have fits : min (byteLength a) (byteLength (a ++ b)) = byteLength a := by
    rw [byteLength_append]
    omega
  rw [Document.before, fits, splitAt?_append]
  rfl

theorem after_append (a b : List Char) : Document.after (byteLength a) (a ++ b) = b := by
  have fits : min (byteLength a) (byteLength (a ++ b)) = byteLength a := by
    rw [byteLength_append]
    omega
  rw [Document.after, fits, splitAt?_append]
  rfl

def Line.blank (line : Line) : Line := { line with content := [] }

/-- A range that begins and ends in given lines: the first of them keeps what is around the range,
the others become blank. -/
theorem replace_lines (a between b : List Line) (top : Line) (start stop : Nat)
    (content : List Char) :
    (Document.mk (a ++ top :: (between ++ b))).replace
        ⟨⟨a.length, start⟩, ⟨a.length + between.length, stop⟩⟩ content =
      ⟨a ++ { top with content := Document.before start top.content ++ content ++
          Document.after stop ((top :: between).getLast (by simp)).content } ::
        (between.map Line.blank ++ b)⟩ := by
  have startLine : (Document.mk (a ++ top :: (between ++ b))).line? a.length =
      some top.content := by
    simp [Document.line?]
  have stopLine : (Document.mk (a ++ top :: (between ++ b))).line? (a.length + between.length) =
      some ((top :: between).getLast (by simp)).content := by
    have place : (a ++ top :: (between ++ b))[a.length + between.length]? =
        (top :: between)[between.length]? := by
      rw [List.getElem?_append_right (Nat.le_add_right _ _), Nat.add_sub_cancel_left,
        ← List.cons_append, List.getElem?_append_left (by simp)]
    rw [Document.line?, place, List.getLast_eq_getElem]
    simp
  have count : (Document.mk (a ++ top :: (between ++ b))).lineCount =
      a.length + between.length + b.length + 1 := by
    simp [Document.lineCount]
    omega
  have next : (Document.mk (a ++ top :: (between ++ b))).nextLine a.length = a.length + 1 := by
    rw [Document.nextLine, count, if_pos (by omega)]
  have last : min (a.length + between.length)
      ((Document.mk (a ++ top :: (between ++ b))).lineCount - 1) = a.length + between.length := by
    rw [count]
    omega
  unfold Document.replace
  simp only [startLine, stopLine, next, last, Option.getD_some]
  congr 1
  refine List.ext_getElem (by simp) ?_
  intro i hi _
  rw [List.getElem_mapIdx]
  simp only [List.length_mapIdx, List.length_append, List.length_cons] at hi
  by_cases inFirst : i < a.length
  · rw [List.getElem_append_left inFirst, List.getElem_append_left inFirst,
      if_neg (by simp; omega), if_neg (by omega)]
  · rw [List.getElem_append_right (by omega), List.getElem_append_right (by omega)]
    obtain ⟨k, rfl⟩ : ∃ k, i = a.length + k := ⟨i - a.length, by omega⟩
    cases k with
    | zero =>
      rw [if_neg (by simp only [Bool.and_eq_true, decide_eq_true_eq]; omega),
        if_pos (Nat.add_zero a.length)]
      simp
    | succ k =>
      have shift : a.length + (k + 1) - a.length = k + 1 := by omega
      simp only [shift, List.getElem_cons_succ]
      by_cases inside : k < between.length
      · rw [List.getElem_append_left inside, List.getElem_append_left (by simpa using inside),
          if_pos (by simp; omega), List.getElem_map]
        rfl
      · rw [List.getElem_append_right (by omega), List.getElem_append_right (by simpa using inside),
          if_neg (by simp; omega), if_neg (by omega)]
        simp

theorem owe_blank (lines : List Line) (last : LineEnding) (rest : List Line) :
    owe (lines.map (·.ending)) (⟨[], last⟩ :: rest) =
      lines.map Line.blank ++ ⟨[], last⟩ :: rest := by
  induction lines with
  | nil => rfl
  | cons line lines ih =>
    rw [List.map_cons, owe, ih]
    rfl

theorem positionOf_append {p : List Char} (k : List Char)
    (apart : p.getLast? = some '\r' → k.head? ≠ some '\n') :
    positionOf (p ++ k) = ⟨(heads p).length + (heads k).length,
      (if heads k = [] then byteLength (lastLine p) else 0) + byteLength (lastLine k)⟩ := by
  have two := glue_append k apart [⟨[], .none⟩]
  have whole : glue (p ++ k) [⟨[], .none⟩] = heads (p ++ k) ++ [⟨lastLine (p ++ k), .none⟩] := by
    simp [glue]
  rw [whole] at two
  cases found : heads k with
  | nil =>
    have shape : glue p (glue k [⟨[], .none⟩]) = heads p ++ [⟨lastLine p ++ lastLine k, .none⟩] := by
      simp [glue, found]
    obtain ⟨first, last⟩ := List.append_inj' (two.trans shape) rfl
    rw [positionOf, first, (Line.mk.inj (List.cons.inj last).1).1, byteLength_append]
    simp
  | cons line lines =>
    have shape : glue p (glue k [⟨[], .none⟩]) =
        (heads p ++ { line with content := lastLine p ++ line.content } :: lines) ++
          [⟨lastLine k, .none⟩] := by
      simp [glue, found]
    obtain ⟨first, last⟩ := List.append_inj' (two.trans shape) rfl
    rw [positionOf, first, (Line.mk.inj (List.cons.inj last).1).1]
    simp

/-- Replacing the range of a text among others keeps the text in front of it and gives its line
endings to what stands behind it. -/
theorem replace_glue {p k : List Char} (apart : p.getLast? = some '\r' → k.head? ≠ some '\n')
    (content : List Char) {lines : List Line} (h : lines ≠ []) :
    (Document.mk (glue p (glue k lines))).replace ⟨positionOf p, positionOf (p ++ k)⟩ content =
      ⟨glue p (prepend content (owe (endings k) lines))⟩ := by
  obtain ⟨x, xs, rfl⟩ := List.exists_cons_of_ne_nil h
  rw [positionOf_append k apart, positionOf, endings]
  cases found : heads k with
  | nil =>
    have parts := replace_lines (heads p) [] xs
      { x with content := lastLine p ++ (lastLine k ++ x.content) } (byteLength (lastLine p))
      (byteLength (lastLine p) + byteLength (lastLine k)) content
    have tail : Document.after (byteLength (lastLine p) + byteLength (lastLine k))
        (lastLine p ++ (lastLine k ++ x.content)) = x.content := by
      rw [← byteLength_append, ← List.append_assoc, after_append]
    simpa [glue, found, prepend, owe, before_append, tail] using parts
  | cons line more =>
    have parts := replace_lines (heads p) (more ++ [{ x with content := lastLine k ++ x.content }])
      xs { line with content := lastLine p ++ line.content } (byteLength (lastLine p))
      (byteLength (lastLine k)) content
    simpa [glue, found, prepend, owe, owe_blank, Line.blank, before_append, after_append] using parts

/-! ## Replacing behind a text -/

theorem splitAt?_append_add (xs : List Char) (n : Nat) (ys : List Char) :
    splitAt? (byteLength xs + n) (xs ++ ys) =
      (splitAt? n ys).map fun parts => (xs ++ parts.1, parts.2) := by
  induction xs with
  | nil => simp [byteLength]
  | cons c cs ih =>
    have positive := c.utf8Size_pos
    obtain ⟨k, hk⟩ : ∃ k, c.utf8Size + byteLength cs + n = k + 1 :=
      ⟨c.utf8Size + byteLength cs + n - 1, by omega⟩
    have rest : k + 1 - c.utf8Size = byteLength cs + n := by omega
    have fits : c.utf8Size ≤ k + 1 := by omega
    simp only [List.cons_append, byteLength, hk, splitAt?, fits, if_true, rest, ih, Option.map_map]
    rfl

theorem before_append_add (a b : List Char) (column : Nat) :
    Document.before (byteLength a + column) (a ++ b) = a ++ Document.before column b := by
  have fits : min (byteLength a + column) (byteLength (a ++ b)) =
      byteLength a + min column (byteLength b) := by
    rw [byteLength_append]
    omega
  rw [Document.before, fits, splitAt?_append_add, Document.before]
  cases splitAt? (min column (byteLength b)) b <;> rfl

theorem length_glue (p : List Char) (line : Line) (lines : List Line) :
    (glue p (line :: lines)).length = (heads p).length + (lines.length + 1) := by
  simp [glue]

/-- Replacing a range behind a text leaves the text in front: the line that the text goes on with is
changed only if the range begins in it. -/
theorem replace_behind {p : List Char} {line : Line} {lines : List Line} {range : Range}
    (content : List Char) (start : (heads p).length ≤ range.start.line)
    (column : range.start.line = (heads p).length → byteLength (lastLine p) ≤ range.start.column)
    (inside : range.start.line < (glue p (line :: lines)).length) :
    ∃ text more, (Document.mk (glue p (line :: lines))).replace range content =
        ⟨glue p ({ line with content := text } :: more)⟩ ∧
      (range.start.line ≠ (heads p).length → text = line.content) ∧
      ∀ column, range.start = ⟨(heads p).length, byteLength (lastLine p) + column⟩ →
        ∃ tail, text = Document.before column line.content ++ (content ++ tail) := by
  have next : (Document.mk (glue p (line :: lines))).nextLine range.start.line =
      range.start.line + 1 := if_pos inside
  let head := Document.before range.start.column
    (((Document.mk (glue p (line :: lines))).line? range.start.line).getD [])
  let tail := Document.after range.stop.column
    (((Document.mk (glue p (line :: lines))).line? range.stop.line).getD [])
  let last := min range.stop.line ((Document.mk (glue p (line :: lines))).lineCount - 1)
  let f (i : Nat) (l : Line) : Line :=
    if range.start.line + 1 ≤ i && i ≤ last then { l with content := [] }
    else if i = range.start.line then { l with content := head ++ content ++ tail } else l
  have whole : (Document.mk (glue p (line :: lines))).replace range content =
      ⟨(glue p (line :: lines)).mapIdx f⟩ := by
    simp only [Document.replace, next]
    rfl
  have front : (heads p).mapIdx f = heads p := by
    refine List.ext_getElem (by simp) fun i hi hi' => ?_
    rw [List.getElem_mapIdx]
    simp only [f]
    rw [if_neg (by simp; omega), if_neg (by omega)]
  have own : f (heads p).length { line with content := lastLine p ++ line.content } =
      if (heads p).length = range.start.line then
        { line with content := head ++ content ++ tail }
      else { line with content := lastLine p ++ line.content } := by
    simp only [f]
    rw [if_neg (by simp; omega)]
  rw [whole, glue, List.mapIdx_append, front, List.mapIdx_cons, Nat.zero_add, own]
  by_cases here : (heads p).length = range.start.line
  · have first : head = lastLine p ++
        Document.before (range.start.column - byteLength (lastLine p)) line.content := by
      have found : (Document.mk (glue p (line :: lines))).line? range.start.line =
          some (lastLine p ++ line.content) := by
        simp [Document.line?, glue, ← here]
      rw [← before_append_add, Nat.add_sub_of_le (column here.symm)]
      simp only [head, found, Option.getD_some]
    rw [if_pos here, first]
    refine ⟨Document.before (range.start.column - byteLength (lastLine p)) line.content ++
      (content ++ tail), lines.mapIdx fun i => f (i + 1 + (heads p).length), ?_,
      fun other => absurd here.symm other, fun column same => ⟨tail, ?_⟩⟩
    · simp only [glue, List.append_assoc]
    · rw [same, Nat.add_sub_cancel_left]
  · rw [if_neg here]
    exact ⟨line.content, _, rfl, fun _ => rfl, fun column same => absurd (same ▸ rfl) here⟩

end BundlePrep.Text
