import BundlePrep.Proofs.Script.Gaps
import BundlePrep.Proofs.Script.Reading
import BundlePrep.Script.Program

/-!
# Scripts in pieces

A piece of a script is an item with the gap in front of it. The readers that are chosen for the
pieces determine them; what counts of a script are its items.
-/

set_option autoImplicit false

namespace BundlePrep.Script

structure Item where
  goal : Lexical
  text : List Char
  deriving DecidableEq, Repr

structure Piece where
  gap : List Char
  goal : Lexical
  text : List Char
  deriving DecidableEq, Repr

def Piece.token (gap text : String) : Piece := ⟨gap.toList, .token, text.toList⟩

def Piece.item (p : Piece) : Item := ⟨p.goal, p.text⟩

/-- The token that an item is, if it is one. -/
def Item.token? (item : Item) : Option Token :=
  match item.goal with
  | .token => (lexeme? item.text 0).map (·.token)
  | _ => none

/-- The name that an item spells, in a script or in markup, without its escapes. -/
def Item.word? (item : Item) : Option String :=
  match item.token?, item.goal with
  | some (.word text _), _ => some text
  | _, .tagWord => some (String.ofList item.text)
  | _, _ => none

/-- The value of an item that is a quoted text. -/
def Item.value? (item : Item) : Option String :=
  match item.token? with
  | some (.text value) => value
  | _ => none

/-- The text of pieces, and what stands behind them. -/
def spell (last : List Char) : List Piece → List Char
  | [] => last
  | p :: ps => p.gap ++ (p.text ++ spell last ps)

/-- The pieces are those that their readers take, one behind the other, up to a gap in front of the
end. -/
def Reads (last : List Char) : Bool → List Piece → Prop
  | newline, [] => behindGap? newline last = some []
  | newline, p :: ps =>
    (if p.goal.gapped then
      behindGap? newline (p.gap ++ (p.text ++ spell last ps)) = some (p.text ++ spell last ps)
    else p.gap = []) ∧
      p.goal.rest? (p.text ++ spell last ps) = some (spell last ps) ∧ Reads last false ps

instance Reads.decidable (last : List Char) :
    (newline : Bool) → (ps : List Piece) → Decidable (Reads last newline ps)
  | newline, [] => inferInstanceAs (Decidable (behindGap? newline last = some []))
  | newline, p :: ps =>
    have := Reads.decidable last false ps
    inferInstanceAs (Decidable ((if p.goal.gapped then
      behindGap? newline (p.gap ++ (p.text ++ spell last ps)) = some (p.text ++ spell last ps)
    else p.gap = []) ∧
      p.goal.rest? (p.text ++ spell last ps) = some (spell last ps) ∧ Reads last false ps))

/-- A text that readers cut into these items, in the first or in a later line. -/
def HasItems (newline : Bool) (text : List Char) (items : List Item) : Prop :=
  ∃ ps last, spell last ps = text ∧ Reads last newline ps ∧ ps.map Piece.item = items

/-- A text behind a mark of the byte order in front of it. -/
def unmarked : List Char → List Char
  | '\ufeff' :: rest => rest
  | text => text

/-- A whole script in pieces, behind a mark of the byte order and a first line that names an
interpreter. -/
structure Layout (text : List Char) where
  line : List Char
  pieces : List Piece
  last : List Char
  whole : text = line ++ spell last pieces
  opening : (skipInterpreter (unmarked text)).1 = spell last pieces
  reads : Reads last true pieces

theorem spell_append (last : List Char) (ps qs : List Piece) :
    spell last (ps ++ qs) = spell (spell last qs) ps := by
  induction ps with
  | nil => rfl
  | cons p ps ih => rw [List.cons_append, spell, spell, ih]

theorem spell_tail (a b : List Char) (ps : List Piece) : spell (a ++ b) ps = spell a ps ++ b := by
  induction ps with
  | nil => rfl
  | cons p ps ih => simp only [spell, ih, List.append_assoc]

theorem Reads.rest? {last : List Char} {newline : Bool} {ps more : List Piece} {p : Piece}
    (h : Reads last newline (ps ++ p :: more)) :
    p.goal.rest? (p.text ++ spell last more) = some (spell last more) := by
  induction ps generalizing newline with
  | nil => exact h.2.1
  | cons q ps ih => exact ih h.2.2

/-- The text of a script is what stands in front of one of its items, the item, and the rest that the
item is read in front of. -/
theorem Layout.exists_read {text : List Char} (layout : Layout text) {ps more : List Piece}
    {p : Piece} (cut : layout.pieces = ps ++ p :: more) :
    ∃ rest, text = (layout.line ++ spell p.gap ps) ++ (p.text ++ rest) ∧
      p.goal.rest? (p.text ++ rest) = some rest := by
  have reads := layout.reads
  rw [cut] at reads
  refine ⟨spell layout.last more, ?_, reads.rest?⟩
  conv_lhs => rw [layout.whole, cut, spell_append, spell, spell_tail]
  simp

theorem Reads.behind {last : List Char} {newline : Bool} {p : Piece} {ps qs : List Piece}
    (h : Reads last newline (p :: (ps ++ qs))) : Reads last false qs := by
  induction ps generalizing newline p with
  | nil => exact h.2.2
  | cons q ps ih => exact ih h.2.2

theorem hasItems_cons {newline : Bool} (goal : Lexical) (gap : List Char) {front : List Char}
    (skips : if goal.gapped then behindGap? newline (gap ++ front) = some front else gap = [])
    (text : List Char) (items : List Item) :
    HasItems newline (gap ++ front) (⟨goal, text⟩ :: items) ↔
      ∃ rest, front = text ++ rest ∧ goal.rest? front = some rest ∧ HasItems false rest items := by
  constructor
  · rintro ⟨ps, last, whole, read, same⟩
    obtain ⟨p, ps, rfl, own, rfl⟩ := List.map_eq_cons_iff.1 same
    obtain ⟨rfl, rfl⟩ := Item.mk.inj own
    obtain ⟨skips', reads, more⟩ := read
    have cut : p.text ++ spell last ps = front := by
      rw [spell] at whole
      split at skips
      next gapped =>
        rw [if_pos gapped, whole, skips] at skips'
        exact (Option.some.inj skips').symm
      next gapped =>
        rw [if_neg gapped] at skips'
        rwa [skips, skips'] at whole
    exact ⟨spell last ps, cut.symm, cut ▸ reads, ps, last, rfl, more, rfl⟩
  · rintro ⟨rest, rfl, reads, ps, last, rfl, more, rfl⟩
    exact ⟨⟨gap, goal, text⟩ :: ps, last, rfl, ⟨skips, reads, more⟩, rfl⟩

theorem hasItems_cons_iff {newline : Bool} (goal : Lexical) (gap : List Char)
    {text rest : List Char}
    (skips : if goal.gapped then behindGap? newline (gap ++ (text ++ rest)) = some (text ++ rest)
      else gap = []) (items : List Item) :
    HasItems newline (gap ++ (text ++ rest)) (⟨goal, text⟩ :: items) ↔
      goal.rest? (text ++ rest) = some rest ∧ HasItems false rest items := by
  rw [hasItems_cons goal gap skips]
  constructor
  · rintro ⟨rest', same, reads, more⟩
    rw [← List.append_cancel_left same] at reads more
    exact ⟨reads, more⟩
  · exact fun both => ⟨rest, rfl, both⟩

theorem hasItems_cons_of_rest? {newline : Bool} (goal : Lexical) (gap : List Char)
    {text rest : List Char}
    (skips : if goal.gapped then behindGap? newline (gap ++ (text ++ rest)) = some (text ++ rest)
      else gap = [])
    (reads : goal.rest? (text ++ rest) = some rest) (items : List Item) :
    HasItems newline (gap ++ (text ++ rest)) (⟨goal, text⟩ :: items) ↔
      HasItems false rest items :=
  (hasItems_cons_iff goal gap skips items).trans (and_iff_right reads)

/-! ## One item -/

theorem Item.text_ne_nil {goal : Lexical} {text rest : List Char}
    (h : goal.rest? (text ++ rest) = some rest) (other : goal ≠ .markupText) : text ≠ [] := by
  obtain ⟨w, whole, nonempty, -⟩ := rest?_eq_some h
  rw [List.append_cancel_right_eq] at whole
  exact whole ▸ nonempty other

theorem Lexical.ne_markupText {goal : Lexical} (gapped : goal.gapped = true) :
    goal ≠ .markupText := by
  rintro rfl
  cases gapped

theorem halts_of_sticky {goal : Lexical} {text rest : List Char}
    (h : goal.rest? (text ++ rest) = some rest) (sticky : goal.sticky text = true) : Halts rest := by
  obtain ⟨w, whole, -, -, halts, -⟩ := rest?_eq_some h
  rw [List.append_cancel_right_eq] at whole
  exact halts (whole ▸ sticky)

theorem not_dollar_of_sticky {goal : Lexical} {text rest : List Char}
    (h : goal.rest? (text ++ rest) = some rest) (sticky : goal.sticky text = true) :
    rest.head? ≠ some '$' :=
  (halts_of_sticky h sticky).not_dollar

theorem noDigit_of_pointing {goal : Lexical} {text rest : List Char}
    (h : goal.rest? (text ++ rest) = some rest) (pointing : goal.pointing text = true) :
    NoDigit rest := by
  obtain ⟨w, whole, -, -, -, noDigit, -⟩ := rest?_eq_some h
  rw [List.append_cancel_right_eq] at whole
  exact noDigit (whole ▸ pointing)

structure Follows (cs ds : List Char) : Prop where
  alike : Alike cs ds
  dollar : ds.head? = some '$' → cs.head? = some '$'

theorem Follows.append (p : List Char) {cs ds : List Char} (h : Follows cs ds) :
    Follows (p ++ cs) (p ++ ds) := by
  refine ⟨h.alike.append p, ?_⟩
  cases p with
  | nil => exact h.dollar
  | cons c p => exact id

theorem follows_of_apart {cs ds : List Char} (hc : ∀ c ∈ cs.head?, isApart c = true)
    (hd : ∀ d ∈ ds.head?, isApart d = true ∧ d ≠ '$') : Follows cs ds :=
  ⟨alike_of_apart hc fun d mem => (hd d mem).1, fun head => absurd rfl (hd '$' head).2⟩

theorem rest?_near {goal : Lexical} {text rest rest' : List Char}
    (h : goal.rest? (text ++ rest) = some rest) (near : Near rest rest')
    (parts : goal.sticky text = true → Parts rest rest')
    (noDigit : goal.pointing text = true → NoDigit rest') :
    goal.rest? (text ++ rest') = some rest' := by
  obtain ⟨w, whole, -, -, -, -, other⟩ := rest?_eq_some h
  rw [List.append_cancel_right_eq] at whole
  subst whole
  exact other rest' near parts noDigit

theorem rest?_alike {goal : Lexical} {text rest rest' : List Char}
    (h : goal.rest? (text ++ rest) = some rest) (alike : Alike rest rest')
    (dollar : goal.sticky text = true → rest'.head? ≠ some '$') :
    goal.rest? (text ++ rest') = some rest' :=
  rest?_near h alike.near (fun sticky => alike.parts (dollar sticky))
    fun pointing => alike.noDigit (noDigit_of_pointing h pointing)

theorem rest?_follows {goal : Lexical} {text rest rest' : List Char}
    (h : goal.rest? (text ++ rest) = some rest) (follows : Follows rest rest') :
    goal.rest? (text ++ rest') = some rest' :=
  rest?_alike h follows.alike fun sticky head =>
    not_dollar_of_sticky h sticky (follows.dollar head)

theorem closed_of_rest? {goal : Lexical} {text rest : List Char}
    (h : goal.rest? (text ++ rest) = some rest) (other : goal ≠ .markupText) : Closed text := by
  obtain ⟨w, whole, -, closed, -⟩ := rest?_eq_some h
  rw [List.append_cancel_right_eq] at whole
  exact whole ▸ closed other

theorem head_of_markupText {text rest : List Char}
    (h : Lexical.markupText.rest? text = some rest) :
    rest.head? = some '{' ∨ rest.head? = some '<' := by
  obtain ⟨⟨behind, stop⟩, found, rfl⟩ := Option.map_eq_some_iff.1 h
  exact (scanMarkupText_eq_some found).1

theorem rest?_apart {goal : Lexical} {text rest : List Char}
    (h : goal.rest? (text ++ rest) = some rest) (last : text.getLast? = some '\r') :
    rest.head? ≠ some '\n' := by
  intro head
  by_cases markup : goal = .markupText
  · subst markup
    rcases head_of_markupText h with brace | tag
    · rw [head] at brace
      cases brace
    · rw [head] at tag
      cases tag
  · exact absurd (closed_of_rest? h markup '\r' last) (by decide)

theorem takeWhile_append {p : Char → Bool} {x : List Char} (h : ∃ d ∈ x, p d = false)
    (y : List Char) : (x ++ y).takeWhile p = x.takeWhile p := by
  induction x with
  | nil =>
    obtain ⟨d, mem, -⟩ := h
    cases mem
  | cons c x ih =>
    rw [List.cons_append, List.takeWhile_cons, List.takeWhile_cons]
    cases own : p c with
    | false => rfl
    | true =>
      obtain ⟨d, mem, other⟩ := h
      rcases List.mem_cons.1 mem with rfl | mem
      · rw [own] at other
        cases other
      · simp only [if_true, ih ⟨d, mem, other⟩]

/-- An item with a line end does not stand in a text where other line ends are put in front of
it. -/
theorem rest?_newlines {goal : Lexical} {a b w rest rest' behind : List Char} {c : Char}
    (h : goal.rest? (a ++ c :: b ++ rest) = some rest)
    (hw : ∀ d ∈ w, isNewline d = true) (nonempty : w ≠ [])
    (whole : a ++ (w ++ c :: b) ++ behind = a ++ c :: b ++ rest') :
    goal.rest? (a ++ (w ++ c :: b) ++ behind) ≠ some rest' := by
  intro again
  rw [whole] at again
  simp only [List.append_assoc, List.append_cancel_left_eq] at whole
  by_cases all : ∀ d ∈ c :: b, isNewline d = true
  · -- Only text in markup ends with a line end, but no line end stands behind it.
    have markup : goal = .markupText := by
      by_contra other
      have closed := closed_of_rest? h other
      cases last : (c :: b).getLast? with
      | none => simp at last
      | some d =>
        have own := closed d (by rw [List.getLast?_append, last]; rfl)
        rw [all d (List.mem_of_getLast? last)] at own
        cases own
    subst markup
    rw [← List.append_assoc] at whole
    rcases List.append_eq_append_iff.1 whole with ⟨t, longer, -⟩ | ⟨t, longer, behindEq⟩
    · have length := congrArg List.length longer
      have positive := List.length_pos_iff.2 nonempty
      simp only [List.length_append] at length
      omega
    · have length := congrArg List.length longer
      have positive := List.length_pos_iff.2 nonempty
      simp only [List.length_append] at length
      cases t with
      | nil =>
        simp only [List.length_nil] at length
        omega
      | cons d t =>
        have newline : isNewline d = true := by
          have mem : d ∈ w ++ c :: b := by rw [longer]; simp
          rcases List.mem_append.1 mem with mem | mem
          · exact hw d mem
          · exact all d mem
        rw [behindEq] at again
        rcases head_of_markupText again with brace | tag
        · obtain rfl : d = '{' := by simpa using brace
          cases newline
        · obtain rfl : d = '<' := by simpa using tag
          cases newline
  · -- The item would begin with as many line ends as the text, which has more.
    have inner : ∃ d ∈ c :: b, isNewline d = false := by
      simpa only [not_forall, exists_prop, Bool.not_eq_true] using all
    have runs := congrArg (List.takeWhile isNewline) whole
    rw [List.takeWhile_append_of_pos hw, takeWhile_append inner, takeWhile_append inner] at runs
    have length := congrArg List.length runs
    rw [List.length_append] at length
    exact nonempty (List.length_eq_zero_iff.1 (by omega))

end BundlePrep.Script
