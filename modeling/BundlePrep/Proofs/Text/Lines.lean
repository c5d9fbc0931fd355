import BundlePrep.Proofs.Text.ByteOrder
import BundlePrep.Proofs.Text.Spans

/-!
# Lines and positions of a text

A text is cut into lines twice: into the lines of a document, which know their endings, and at the
places where lines begin, from which positions are counted. Both have the same lines, and a column
counts bytes of the line that the document has there.
-/

set_option autoImplicit false

namespace BundlePrep.Text

/-- The order of positions: by line, then by column. -/
def Position.Before (p q : Position) : Prop :=
  p.line < q.line ∨ p.line = q.line ∧ p.column < q.column

/-- Where all lines of a text begin. -/
def LineIndex.lineStarts (index : LineIndex) : List Nat := 0 :: index.starts

/-- The bytes of a text up to an offset that are line feeds. -/
def feedsBefore (text : List Char) (offset : Nat) : Nat :=
  ((text.flatMap String.utf8EncodeChar).take offset).count 10

/-! ## Line feeds among the bytes -/

theorem utf8EncodeChar_lineFeed : String.utf8EncodeChar '\n' = [10] := by decide

theorem lineFeed_not_mem_encode {c : Char} (other : c ≠ '\n') : 10 ∉ String.utf8EncodeChar c :=
  fun mem => other (eq_of_mem_encode mem (by decide))

theorem feedsBefore_lineFeed (cs : List Char) (offset : Nat) :
    feedsBefore ('\n' :: cs) (offset + 1) = feedsBefore cs offset + 1 := by
  rw [feedsBefore, List.flatMap_cons, utf8EncodeChar_lineFeed, List.singleton_append,
    List.take_succ_cons, List.count_cons_self]
  rfl

theorem feedsBefore_char {c : Char} (other : c ≠ '\n') (cs : List Char) (offset : Nat) :
    feedsBefore (c :: cs) offset = feedsBefore cs (offset - c.utf8Size) := by
  have none : ((String.utf8EncodeChar c).take offset).count 10 = 0 :=
    List.count_eq_zero.2 fun mem => lineFeed_not_mem_encode other (List.mem_of_mem_take mem)
  rw [feedsBefore, List.flatMap_cons, List.take_append, List.count_append, none, Nat.zero_add,
    String.length_utf8EncodeChar]
  rfl

/-! ## Where lines begin -/

theorem countP_lineStarts (start offset : Nat) (text : List Char) :
    (lineStarts start text).countP (· ≤ start + offset) = feedsBefore text offset := by
  induction text generalizing start offset with
  | nil => simp [lineStarts, feedsBefore]
  | cons c cs ih =>
    rw [lineStarts]
    split
    next feed =>
      subst feed
      cases offset with
      | zero =>
        have none : (lineStarts (start + 1) cs).countP (· ≤ start + 0) = 0 := by
          refine List.countP_eq_zero.2 fun x mem => ?_
          have := lt_of_mem_lineStarts mem
          simp
          omega
        rw [List.countP_cons_of_neg (by simp), none]
        simp [feedsBefore]
      | succ offset =>
        rw [feedsBefore_lineFeed, List.countP_cons_of_pos (by simp), ← ih (start + 1)]
        congr 2
        funext x
        congr 2
        omega
    next other =>
      rw [feedsBefore_char other]
      by_cases inside : c.utf8Size ≤ offset
      · rw [← ih (start + c.utf8Size)]
        congr 1
        funext x
        congr 2
        omega
      · have zero : offset - c.utf8Size = 0 := by omega
        rw [zero]
        refine (List.countP_eq_zero.2 fun x mem => ?_).trans (by simp [feedsBefore])
        have := lt_of_mem_lineStarts mem
        simp
        omega

theorem pairwise_lineStarts (start : Nat) (text : List Char) :
    (lineStarts start text).Pairwise (· < ·) := by
  induction text generalizing start with
  | nil => exact .nil
  | cons c cs ih =>
    rw [lineStarts]
    split
    · exact .cons (fun x mem => lt_of_mem_lineStarts mem) (ih (start + 1))
    · exact ih (start + c.utf8Size)

theorem locate_eq {starts : List Nat} {offset line start : Nat} (le : start ≤ offset)
    (sorted : (start :: starts).Pairwise (· < ·)) :
    (locate offset starts line start).line = line + starts.countP (· ≤ offset) ∧
      ∃ begins, (start :: starts)[starts.countP (· ≤ offset)]? = some begins ∧
        begins + (locate offset starts line start).column = offset := by
  induction starts generalizing line start with
  | nil => exact ⟨rfl, start, rfl, Nat.add_sub_of_le le⟩
  | cons next starts ih =>
    obtain ⟨-, others⟩ := List.pairwise_cons.1 sorted
    rw [locate]
    split
    next passed =>
      obtain ⟨lines, begins, found, column⟩ := @ih (line + 1) next passed others
      rw [List.countP_cons_of_pos (by simpa using passed), lines]
      exact ⟨by omega, begins, found, column⟩
    next ahead =>
      have none : (next :: starts).countP (· ≤ offset) = 0 := by
        refine List.countP_eq_zero.2 fun x mem => ?_
        rcases List.mem_cons.1 mem with rfl | mem
        · simpa using ahead
        · have := (List.pairwise_cons.1 others).1 x mem
          simp
          omega
      rw [none]
      exact ⟨rfl, start, rfl, Nat.add_sub_of_le le⟩

/-! ## Positions -/

theorem position_eq (text : List Char) (offset : Nat) :
    ((LineIndex.ofText text).position offset).line = feedsBefore text offset ∧
      ∃ start, (LineIndex.ofText text).lineStarts[feedsBefore text offset]? = some start ∧
        start + ((LineIndex.ofText text).position offset).column = offset := by
  have sorted : (0 :: lineStarts 0 text).Pairwise (· < ·) :=
    .cons (fun x mem => lt_of_mem_lineStarts mem) (pairwise_lineStarts 0 text)
  have counted := countP_lineStarts 0 offset text
  have located := @locate_eq _ offset 0 0 (Nat.zero_le offset) sorted
  rw [Nat.zero_add] at counted
  rwa [counted, Nat.zero_add] at located

theorem feedsBefore_mono (text : List Char) {offset later : Nat} (le : offset ≤ later) :
    feedsBefore text offset ≤ feedsBefore text later := by
  rw [feedsBefore, feedsBefore]
  exact (List.take_sublist_take_left le).count_le 10

theorem before_position (text : List Char) {offset later : Nat} (lt : offset < later) :
    ((LineIndex.ofText text).position offset).Before
      ((LineIndex.ofText text).position later) := by
  obtain ⟨line, start, found, column⟩ := position_eq text offset
  obtain ⟨line', start', found', column'⟩ := position_eq text later
  rw [Position.Before, line, line']
  rcases Nat.lt_or_eq_of_le (feedsBefore_mono text (Nat.le_of_lt lt)) with less | same
  · exact .inl less
  · rw [← same, found] at found'
    obtain rfl := Option.some.inj found'
    exact .inr ⟨same, by omega⟩

/-! ## The lines of the document -/

/-- A text that is not cut inside a line ending leaves what is behind its last line feed at the
beginning of a line. -/
theorem line?_append {front behind : List Char} (apart : Apart front behind) :
    ∃ rest, (Document.ofText (front ++ behind)).line? (positionOf front).line =
      some (lastLine front ++ rest) := by
  obtain ⟨line, lines, more⟩ :=
    List.exists_cons_of_ne_nil (glue_ne_nil behind (List.cons_ne_nil ⟨[], .none⟩ []))
  refine ⟨line.content, ?_⟩
  rw [ofText_eq_glue, glue_append behind apart, more, Document.line?, positionOf, glue,
    List.getElem?_append_right (Nat.le_refl _), Nat.sub_self]
  rfl

theorem slice?_lastLine (front behind : List Char) :
    slice? (front ++ behind) (byteLength front - byteLength (lastLine front)) (byteLength front) =
      some (lastLine front) := by
  have whole := toText_heads front
  generalize Document.toText ⟨heads front⟩ = complete at whole
  have size : byteLength front = byteLength complete + byteLength (lastLine front) := by
    rw [← byteLength_append, whole]
  have parts : front ++ behind = complete ++ (lastLine front ++ behind) := by
    rw [← List.append_assoc, whole]
  rw [slice?, if_neg (by omega), size, Nat.add_sub_cancel, Nat.add_sub_cancel_left, parts,
    splitAt?_append]
  simp only [Option.bind_eq_bind, Option.bind_some, splitAt?_append]
  rfl

/-- At an offset that is not inside a character or a line ending, the line of the document begins with
what the text has between the beginning of the line and the offset. -/
theorem line?_position {text : List Char} {offset : Nat} (cut : CutsAt text offset) :
    ∃ part rest, byteLength part = ((LineIndex.ofText text).position offset).column ∧
      (Document.ofText text).line? ((LineIndex.ofText text).position offset).line =
        some (part ++ rest) ∧
      slice? text (offset - ((LineIndex.ofText text).position offset).column) offset =
        some part := by
  obtain ⟨front, behind, rfl, rfl, apart⟩ := cut
  obtain ⟨rest, found⟩ := line?_append apart
  rw [position_append]
  exact ⟨lastLine front, rest, rfl, found, slice?_lastLine front behind⟩

/-- The lines of a document make up its text. They are as many as the places where lines begin, and
positions lead to them: a position is told by the line feeds in front of an offset and by the place
where the line begins, positions ascend with the offsets, and the column counts the bytes of the
line in the document up to the offset. -/
theorem document_agrees_with_positions (text : List Char) :
    (Document.ofText text).toText = text ∧
    (Document.ofText text).lineCount = (LineIndex.ofText text).lineStarts.length ∧
    (∀ offset, ((LineIndex.ofText text).position offset).line = feedsBefore text offset ∧
      ∃ start,
        (LineIndex.ofText text).lineStarts[((LineIndex.ofText text).position offset).line]? =
          some start ∧
        start + ((LineIndex.ofText text).position offset).column = offset ∧
        (CutsAt text offset → ∃ part rest,
          byteLength part = ((LineIndex.ofText text).position offset).column ∧
          (Document.ofText text).line? ((LineIndex.ofText text).position offset).line =
            some (part ++ rest) ∧
          slice? text start offset = some part)) ∧
    ∀ offset later, offset < later →
      ((LineIndex.ofText text).position offset).Before
        ((LineIndex.ofText text).position later) := by
  refine ⟨Document.toText_ofText text, ?_, fun offset => ?_, fun _ _ => before_position text⟩
  · rw [Document.lineCount, Document.ofText, splitLines_eq, List.length_append, length_heads,
      List.length_singleton, LineIndex.lineStarts, List.length_cons]
    exact congrArg (· + 1) (length_lineStarts 0 text).symm
  · obtain ⟨line, start, found, column⟩ := position_eq text offset
    refine ⟨line, start, by rw [line, found], column, fun cut => ?_⟩
    obtain ⟨part, rest, size, content, slice⟩ := line?_position cut
    have begins : offset - ((LineIndex.ofText text).position offset).column = start := by omega
    rw [begins] at slice
    exact ⟨part, rest, size, content, slice⟩

end BundlePrep.Text
