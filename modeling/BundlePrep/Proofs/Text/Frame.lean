import BundlePrep.Proofs.Text.Spans

/-!
# Lines outside a replaced range

Replacing a range changes the lines from its first to its last one and no others, whatever positions it
has: they may lie behind the text, inside of characters or in the wrong order. There is one exception.
The line behind the first one is counted in words, and behind the greatest word the count begins anew.
-/

set_option autoImplicit false

namespace BundlePrep.Text

/-- The lines from the first to the last one of a range; the first alone if the last stands before it. -/
def Range.Reaches (range : Range) (index : Nat) : Prop :=
  range.start.line ≤ index ∧ index ≤ max range.start.line range.stop.line

instance (range : Range) (index : Nat) : Decidable (range.Reaches index) :=
  inferInstanceAs (Decidable (_ ∧ _))

namespace Document

/-- A line behind the end with no word for the line behind it. -/
def Wraps (d : Document) (line : Nat) : Prop := d.lineCount ≤ line ∧ UInt64.size ≤ line + 1

instance (d : Document) (line : Nat) : Decidable (d.Wraps line) :=
  inferInstanceAs (Decidable (_ ∧ _))

/-- What a range leaves of the first of its lines, around a content. -/
def joinedContent (d : Document) (range : Range) (content : List Char) : List Char :=
  before range.start.column ((d.line? range.start.line).getD []) ++ content ++
    after range.stop.column ((d.line? range.stop.line).getD [])

section

variable {d : Document} {range : Range} {content : List Char}

theorem nextLine_eq {line : Nat} (word : line < UInt64.size) :
    d.nextLine line = if d.Wraps line then 0 else line + 1 := by
  by_cases inside : line < d.lineCount
  · have straight : ¬d.Wraps line := fun wraps => Nat.not_lt.2 wraps.1 inside
    rw [nextLine, if_pos inside, if_neg straight]
  · rw [nextLine, if_neg inside]
    by_cases last : line + 1 = UInt64.size
    · have wraps : d.Wraps line := ⟨Nat.not_lt.1 inside, Nat.le_of_eq last.symm⟩
      rw [if_pos wraps, last, Nat.mod_self]
    · have small : line + 1 < UInt64.size := Nat.lt_of_le_of_ne word last
      have straight : ¬d.Wraps line := fun wraps => Nat.not_lt.2 wraps.2 small
      rw [if_neg straight, Nat.mod_eq_of_lt small]

theorem getElem?_replace (index : Nat) :
    (d.replace range content).lines[index]? = (d.lines[index]?).map fun line =>
      if d.nextLine range.start.line ≤ index ∧ index ≤ range.stop.line then line.blank
      else if index = range.start.line then { line with content := d.joinedContent range content }
      else line := by
  rw [replace, List.getElem?_mapIdx]
  cases found : d.lines[index]? with
  | none => rfl
  | some line =>
    have inside : index < d.lineCount := (List.getElem?_eq_some_iff.1 found).1
    have last : index ≤ min range.stop.line (d.lineCount - 1) ↔ index ≤ range.stop.line := by omega
    simp only [Option.map_some, Bool.and_eq_true, decide_eq_true_eq, last]
    rfl

theorem replace_of_start (counts : d.nextLine range.start.line = range.start.line + 1) {line : Line}
    (found : d.lines[range.start.line]? = some line) :
    (d.replace range content).lines[range.start.line]? =
      some { line with content := d.joinedContent range content } := by
  rw [getElem?_replace, found, counts, Option.map_some, if_neg (by omega), if_pos rfl]

theorem replace_of_behind (counts : d.nextLine range.start.line = range.start.line + 1)
    {index : Nat} (behind : range.start.line < index) (before : index ≤ range.stop.line) :
    (d.replace range content).lines[index]? = (d.lines[index]?).map Line.blank := by
  rw [getElem?_replace, counts]
  simp only [if_pos (And.intro (Nat.succ_le_of_lt behind) before)]

theorem replace_of_not_reaches (counts : d.nextLine range.start.line = range.start.line + 1)
    {index : Nat} (outside : ¬range.Reaches index) :
    (d.replace range content).lines[index]? = d.lines[index]? := by
  rw [Range.Reaches] at outside
  rw [getElem?_replace, counts]
  simp only [if_neg (show ¬(range.start.line + 1 ≤ index ∧ index ≤ range.stop.line) by omega),
    if_neg (show index ≠ range.start.line by omega)]
  exact Option.map_id'

theorem replace_of_wraps (word : range.start.line < UInt64.size)
    (wraps : d.Wraps range.start.line) (index : Nat) :
    (d.replace range content).lines[index]? =
      (d.lines[index]?).map fun line => if index ≤ range.stop.line then line.blank else line := by
  rw [getElem?_replace, nextLine_eq word, if_pos wraps]
  cases found : d.lines[index]? with
  | none => rfl
  | some line =>
    have inside : index < d.lineCount := (List.getElem?_eq_some_iff.1 found).1
    have other : index ≠ range.start.line := by
      have := wraps.1
      omega
    simp only [Option.map_some, Nat.zero_le, true_and, if_neg other]

theorem eq_blank_iff {line : Line} : line.blank = line ↔ line.content = [] := by
  obtain ⟨content, ending⟩ := line
  constructor
  · intro same
    exact (Line.mk.inj same).1.symm
  · rintro rfl
    rfl

theorem leaves_lines_iff_of_wraps (word : range.start.line < UInt64.size)
    (wraps : d.Wraps range.start.line) :
    (∀ index, ¬range.Reaches index →
        (d.replace range content).lines[index]? = d.lines[index]?) ↔
      ∀ index line, index ≤ range.stop.line → d.lines[index]? = some line → line.content = [] := by
  constructor
  · intro kept index line before found
    -- The range begins behind the text, so no line of the text is one of its lines.
    have inside : index < d.lineCount := (List.getElem?_eq_some_iff.1 found).1
    have outside : ¬range.Reaches index := fun reaches => by
      have := wraps.1
      have := reaches.1
      omega
    have own := kept index outside
    rw [replace_of_wraps word wraps, found, Option.map_some, if_pos before] at own
    exact eq_blank_iff.1 (Option.some.inj own)
  · intro blank index outside
    rw [replace_of_wraps word wraps]
    cases found : d.lines[index]? with
    | none => rfl
    | some line =>
      rw [Option.map_some]
      split
      next before => rw [eq_blank_iff.2 (blank index line before found)]
      next => rfl

theorem replace_of_behind_text (counts : d.nextLine range.start.line = range.start.line + 1)
    (outside : d.lineCount ≤ range.start.line) : d.replace range content = d := by
  have same : (d.replace range content).lines = d.lines := by
    refine List.ext_getElem? fun index => ?_
    by_cases reaches : range.Reaches index
    · have behind : d.lines[index]? = none :=
        List.getElem?_eq_none (Nat.le_trans outside reaches.1)
      rw [getElem?_replace, behind]
      rfl
    · exact replace_of_not_reaches counts reaches
  exact congrArg Document.mk same

/-- A replacement keeps the number of lines and all line endings. Unless the count begins anew, it puts
what is left of the first and the last line of the range around the content into the first line, makes
the lines behind it blank up to the last one, and leaves all other lines as they were, so that a range
behind the text changes nothing. If the count does begin anew, the lines outside of the range stay as
they were only if all lines up to the last one of the range are blank already. -/
theorem replace_leaves_lines (d : Document) (range : Range) (content : List Char)
    (word : range.start.line < UInt64.size) :
    (d.replace range content).lineCount = d.lineCount ∧
    (d.replace range content).endings = d.endings ∧
    ((∀ index, ¬range.Reaches index →
        (d.replace range content).lines[index]? = d.lines[index]?) ↔
      ¬d.Wraps range.start.line ∨
        ∀ index line, index ≤ range.stop.line → d.lines[index]? = some line → line.content = []) ∧
    (¬d.Wraps range.start.line →
      (∀ line, d.lines[range.start.line]? = some line →
        (d.replace range content).lines[range.start.line]? =
          some { line with content := d.joinedContent range content }) ∧
      (∀ index, range.start.line < index → index ≤ range.stop.line →
        (d.replace range content).lines[index]? = (d.lines[index]?).map Line.blank) ∧
      (d.lineCount ≤ range.start.line → d.replace range content = d)) := by
  have counts (straight : ¬d.Wraps range.start.line) :
      d.nextLine range.start.line = range.start.line + 1 := by
    rw [nextLine_eq word, if_neg straight]
  refine ⟨lineCount_replace d range content, endings_replace d range content, ?_,
    fun straight => ⟨fun line => replace_of_start (counts straight),
      fun index => replace_of_behind (counts straight), replace_of_behind_text (counts straight)⟩⟩
  by_cases wraps : d.Wraps range.start.line
  · rw [or_iff_right (not_not_intro wraps)]
    exact leaves_lines_iff_of_wraps word wraps
  · exact iff_of_true (fun index => replace_of_not_reaches (counts wraps)) (.inl wraps)

theorem replace_leaves_lines_backwards :
    2 < UInt64.size ∧ (∀ index, index ≠ 2 →
      ((ofText "a\nb\né\nc".toList).replace ⟨⟨2, 1⟩, ⟨0, 7⟩⟩ ['x']).lines[index]? =
        (ofText "a\nb\né\nc".toList).lines[index]?) := by
  have word : 2 < UInt64.size := by decide
  have frame := (replace_leaves_lines (ofText "a\nb\né\nc".toList) ⟨⟨2, 1⟩, ⟨0, 7⟩⟩ ['x'] word).2.2.1
  refine ⟨word, fun index other => frame.2 (.inl (by decide)) index fun reaches => ?_⟩
  have := reaches.1
  have := reaches.2
  simp only at *
  omega

/-- A range that begins in the line of the greatest word makes the first line blank. -/
theorem replace_wraps :
    ¬(Range.mk ⟨18446744073709551615, 0⟩ ⟨0, 0⟩).Reaches 0 ∧
      (ofText "a\nb".toList).lines[0]? = some ⟨['a'], .lineFeed⟩ ∧
      ((ofText "a\nb".toList).replace ⟨⟨18446744073709551615, 0⟩, ⟨0, 0⟩⟩ []).lines[0]? =
        some ⟨[], .lineFeed⟩ := by
  decide

end

end Document

end BundlePrep.Text
