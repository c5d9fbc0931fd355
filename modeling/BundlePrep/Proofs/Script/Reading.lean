import BundlePrep.Proofs.Script.Lookahead
import BundlePrep.Proofs.Script.Texts

/-!
# Items of a script

A script is read as a sequence of items with gaps between them. Which reader takes the next item is
for the grammar to say: a slash is a division or opens a pattern, and a brace may go on with a
template. What a reader takes is therefore described for every choice of readers.
-/

set_option autoImplicit false

namespace BundlePrep.Script

open BundlePrep.Text

/-- The readers of items. -/
inductive Lexical where
  | token
  | regex
  | operator
  | template
  | tagWord
  | attributeText
  | markupText
  deriving DecidableEq, Repr

def scanOperator : List Char → Option (List Char)
  | '<' :: '<' :: '=' :: r => some r
  | '<' :: '<' :: r => some r
  | '<' :: '=' :: r => some r
  | '<' :: r => some r
  | '>' :: '>' :: '>' :: '=' :: r => some r
  | '>' :: '>' :: '>' :: r => some r
  | '>' :: '>' :: '=' :: r => some r
  | '>' :: '>' :: r => some r
  | '>' :: '=' :: r => some r
  | '>' :: r => some r
  | _ => none

namespace Lexical

def rest? : Lexical → List Char → Option (List Char)
  | token, c :: cs => (lexeme? (c :: cs) 0).map (·.rest)
  | regex, '/' :: cs => (scanRegex cs 1).map (·.1)
  | operator, cs => scanOperator cs
  | template, cs => (scanTemplate true cs 0).map (·.rest)
  | tagWord, c :: cs => if isNameStart c then some (Parse.scanTagWord [] (c :: cs) 0).2.1 else none
  | attributeText, quote :: cs =>
    if quote == '"' || quote == '\x27' then (Parse.attributeText quote cs 1).map (·.1) else none
  | markupText, cs => (Parse.scanMarkupText cs 0).map (·.1)
  | _, _ => none

def gapped : Lexical → Bool
  | template | markupText => false
  | _ => true

def sticky : Lexical → List Char → Bool
  | token, '#' :: _ => true
  | token, '\\' :: _ => true
  | token, '.' :: d :: _ => d.isDigit
  | token, c :: _ => c.isDigit || isNameStart c
  | regex, _ => true
  | tagWord, _ => true
  | _, _ => false

def pointing : Lexical → List Char → Bool
  | token, text => text == ['.'] || text == ['?', '.']
  | _, _ => false

end Lexical

/-! ## Tokens -/

theorem wordLexeme_eq_some {wrap : String → Bool → Token} {cs : List Char} {pos : Nat}
    {lexeme : Lexeme} (h : wordLexeme wrap cs pos = some lexeme) :
    Breaks lexeme.rest ∧ ∃ w, w ≠ [] ∧ Closed w ∧ cs = w ++ lexeme.rest ∧ ∀ rest, Breaks rest →
      wordLexeme wrap (w ++ rest) pos = some { lexeme with rest := rest } := by
  simp only [wordLexeme, Option.bind_eq_bind, Option.bind_eq_some_iff] at h
  obtain ⟨word, found, h⟩ := h
  obtain ⟨breaks, w, closed, rfl, other⟩ := scanWord_eq_some found
  split at h
  · cases h
  next nonempty =>
    obtain rfl := Option.some.inj h
    have letters : word.text ≠ [] := by simpa using nonempty
    refine ⟨breaks letters, w, ?_, closed, rfl, fun rest breaks' => ?_⟩
    · rintro rfl
      have none := other [] (by simp [Breaks])
      rw [List.nil_append, scanWord] at none
      have text := congrArg Word.text (Option.some.inj none)
      exact letters text.symm
    · simp only [wordLexeme, other rest breaks', Option.bind_eq_bind, Option.bind_some, if_neg nonempty]
      rfl

theorem numberLexeme_eq_some {cs : List Char} {pos : Nat} {lexeme : Lexeme}
    (h : numberLexeme cs pos = some lexeme) :
    endsNumeral lexeme.rest = true ∧ ∃ w, Closed w ∧ cs = w ++ lexeme.rest ∧ ∀ rest, Ends lexeme.rest rest →
      numberLexeme (w ++ rest) pos = some { lexeme with rest := rest } := by
  simp only [numberLexeme, Option.bind_eq_bind, Option.bind_eq_some_iff] at h
  obtain ⟨numeral, found, h⟩ := h
  obtain ⟨w, closed, rfl, other⟩ := scanNumeral_eq_some found
  split at h
  next ends =>
    obtain rfl := Option.some.inj h
    refine ⟨ends, w, closed, rfl, fun rest ends' => ?_⟩
    simp only [numberLexeme, other rest ends', Option.bind_eq_bind, Option.bind_some, if_pos ends'.1]
    rfl
  · cases h

theorem textLexeme_eq_some {quote : Char} (hq : quote ≠ '\\') {cs : List Char} {pos : Nat}
    {lexeme : Lexeme} (h : textLexeme quote cs pos = some lexeme) :
    ∃ w, cs = w ++ quote :: lexeme.rest ∧ ∀ rest,
      textLexeme quote (w ++ quote :: rest) pos = some { lexeme with rest := rest } := by
  simp only [textLexeme, Option.bind_eq_bind, Option.bind_eq_some_iff] at h
  obtain ⟨⟨written, behind⟩, found, ⟨codes, octal⟩, decoded, same⟩ := h
  obtain ⟨w, rfl, other⟩ := scanQuoted_eq_some hq found
  obtain rfl := Option.some.inj same
  refine ⟨w, rfl, fun rest => ?_⟩
  simp only [textLexeme, other rest, Option.bind_eq_bind, Option.bind_some, decoded]
  rfl

theorem markLexeme_eq_some {cs : List Char} {pos : Nat} {lexeme : Lexeme}
    (h : markLexeme cs pos = some lexeme) :
    ∃ w, w ≠ [] ∧ Closed w ∧ cs = w ++ lexeme.rest ∧ (w = ['?', '.'] → NoDigit lexeme.rest) ∧
      ∀ rest, Near lexeme.rest rest → (w = ['?', '.'] → NoDigit rest) →
        markLexeme (w ++ rest) pos = some { lexeme with rest := rest } := by
  simp only [markLexeme, Option.bind_eq_bind, Option.bind_eq_some_iff] at h
  obtain ⟨⟨mark, n, behind⟩, found, same⟩ := h
  obtain ⟨positive, closed, whole, point, other⟩ := scan_near found
  obtain rfl := Option.some.inj same
  refine ⟨cs.take n, ?_, closed, whole, point, fun rest near plain => ?_⟩
  · intro none
    cases cs with
    | nil => cases found
    | cons c cs =>
      obtain ⟨m, rfl⟩ := Nat.exists_eq_succ_of_ne_zero (Nat.pos_iff_ne_zero.1 positive)
      cases none
  · simp only [markLexeme, other rest near plain, Option.bind_eq_bind, Option.bind_some]
    rfl

theorem breaks_of_apart {rest : List Char} (apart : ∀ c ∈ rest.head?, isApart c = true)
    (dollar : rest.head? ≠ some '$') : Breaks rest := by
  intro c mem
  have other : c ≠ '$' := fun same => dollar (same ▸ mem)
  have chars := apart c mem
  simp only [isApart, Bool.or_eq_true, beq_iff_eq] at chars
  rcases chars with (((((rfl | rfl) | rfl) | rfl) | rfl) | rfl) | rfl
  all_goals first | decide | exact (other rfl).elim

theorem Alike.parts {rest rest' : List Char} (h : Alike rest rest')
    (dollar : rest'.head? ≠ some '$') : Parts rest rest' := by
  rcases h.head with same | ⟨-, apart⟩
  · exact .inl same.symm
  · exact .inr (breaks_of_apart apart dollar)

theorem Near.ends {rest rest' : List Char} (h : Near rest rest') (parts : Parts rest rest')
    (ends : endsNumeral rest = true) : Ends rest rest' :=
  ⟨parts.endsNumeral ends, (h.head (by decide)).2⟩

def isOpening (c : Char) : Bool :=
  c == '#' || c == '\x27' || c == '"' || c == '.' || c == '\\'

theorem lexeme?_plain {c : Char} (h : isOpening c = false) (cs : List Char) (pos : Nat) :
    lexeme? (c :: cs) pos =
      if c.isDigit then numberLexeme (c :: cs) pos
      else if isNameStart c then wordLexeme .word (c :: cs) pos
      else markLexeme (c :: cs) pos := by
  rw [lexeme?]
  all_goals
    intros
    subst_vars
    exact absurd h (by decide)

theorem sticky_plain {c : Char} (h : isOpening c = false) (w : List Char) :
    Lexical.token.sticky (c :: w) = (c.isDigit || isNameStart c) := by
  rw [Lexical.sticky]
  all_goals
    intros
    subst_vars
    exact absurd h (by decide)

theorem pointing_plain {c : Char} (h : isOpening c = false) (w : List Char) :
    Lexical.token.pointing (c :: w) = true ↔ c :: w = ['?', '.'] := by
  have point : c ≠ '.' := by
    rintro rfl
    cases h
  simp [Lexical.pointing, point]

theorem not_pointing_plain {c : Char} (h : isOpening c = false)
    (other : (c.isDigit || isNameStart c) = true) (w : List Char) :
    Lexical.token.pointing (c :: w) = false := by
  rw [← Bool.not_eq_true, pointing_plain h]
  rintro same
  rw [(List.cons.inj same).1] at other
  exact absurd other (by decide)

theorem numberLexeme_dot {cs : List Char} {pos : Nat} {lexeme : Lexeme}
    (h : numberLexeme ('.' :: cs) pos = some lexeme) : ∃ w, cs = w ++ lexeme.rest := by
  simp only [numberLexeme, Option.bind_eq_bind, Option.bind_eq_some_iff] at h
  obtain ⟨numeral, found, h⟩ := h
  have stops : Stops Char.isDigit ('.' :: cs) := by
    intro c mem
    obtain rfl : '.' = c := by simpa using mem
    decide
  rw [scanNumeral_plain (by simp), digitRun_here stops, Option.bind_some, scanFraction] at found
  simp only [Option.bind_eq_bind, Option.bind_eq_some_iff] at found
  obtain ⟨⟨count, behind⟩, run, ⟨total, rest⟩, exponent, same⟩ := found
  obtain ⟨-, w, -, rfl, -⟩ := digitRun_eq_some decimal run
  obtain ⟨w', -, rfl, -⟩ := scanExponent_eq_some exponent
  obtain rfl := Option.some.inj same
  split at h
  · obtain rfl := Option.some.inj h
    exact ⟨w ++ w', by simp⟩
  · cases h

theorem lexeme?_dot {cs : List Char} {pos : Nat} {lexeme : Lexeme}
    (h : lexeme? ('.' :: cs) pos = some lexeme) :
    ∃ w, Closed ('.' :: w) ∧ cs = w ++ lexeme.rest ∧
      (Lexical.token.sticky ('.' :: w) = true → Halts lexeme.rest) ∧
      (Lexical.token.pointing ('.' :: w) = true → NoDigit lexeme.rest) ∧
      ∀ rest, Near lexeme.rest rest →
        (Lexical.token.sticky ('.' :: w) = true → Parts lexeme.rest rest) →
        (Lexical.token.pointing ('.' :: w) = true → NoDigit rest) →
          lexeme? ('.' :: (w ++ rest)) pos = some { lexeme with rest := rest } := by
  have mark (ds : List Char) (plain : NoDigit ds) :
      lexeme? ('.' :: ds) pos = markLexeme ('.' :: ds) pos := by
    cases ds with
    | nil => rfl
    | cons d ds => exact if_neg (by simp [plain d rfl])
  by_cases digit : ∃ d ∈ cs.head?, d.isDigit = true
  · obtain ⟨d, head, digit⟩ := digit
    obtain ⟨cs, rfl⟩ := List.head?_eq_some_iff.1 head
    have number (ds : List Char) :
        lexeme? ('.' :: d :: ds) pos = numberLexeme ('.' :: d :: ds) pos := if_pos digit
    rw [number] at h
    obtain ⟨ends, w, closed, whole, other⟩ := numberLexeme_eq_some h
    obtain ⟨v, behind⟩ := numberLexeme_dot h
    rw [behind, ← List.cons_append, List.append_cancel_right_eq] at whole
    subst whole
    rcases List.append_eq_cons_iff.1 behind.symm with ⟨rfl, same⟩ | ⟨v, rfl, rfl⟩
    · rw [same] at ends
      simp [endsNumeral, digit] at ends
    · refine ⟨d :: v, closed, rfl, fun _ => halts_of_endsNumeral ends,
        by simp [Lexical.pointing], fun rest near parts _ => ?_⟩
      rw [List.cons_append, number]
      exact other rest (near.ends (parts digit) ends)
  · have plain : NoDigit cs := by
      intro d mem
      by_contra isDigit
      exact digit ⟨d, mem, by simpa using isDigit⟩
    rw [mark cs plain] at h
    obtain ⟨w, nonempty, closed, whole, -, other⟩ := markLexeme_eq_some h
    obtain ⟨w, rfl, rfl⟩ := List.append_eq_cons_iff.1 whole.symm |>.resolve_left
      (fun none => nonempty none.1)
    have further {rest : List Char} (noDigit : Lexical.token.pointing ('.' :: w) = true → NoDigit rest) :
        NoDigit (w ++ rest) := by
      cases w with
      | nil => exact noDigit rfl
      | cons d w => exact plain
    refine ⟨w, closed, rfl, fun sticky => ?_, fun pointing => ?_, fun rest near _ noDigit => ?_⟩
    · cases w with
      | nil => cases (show false = true from sticky)
      | cons d w =>
        have isDigit : d.isDigit = true := sticky
        rw [plain d rfl] at isDigit
        cases isDigit
    · obtain rfl : w = [] := by simpa [Lexical.pointing] using pointing
      exact plain
    · rw [mark _ (further noDigit)]
      exact other rest near (by simp)

/-- A token is taken without what follows it, and whatever follows that is near it and goes on no
word and no point. -/
theorem lexeme?_eq_some {c : Char} {cs : List Char} {pos : Nat} {lexeme : Lexeme}
    (h : lexeme? (c :: cs) pos = some lexeme) :
    ∃ w, Closed (c :: w) ∧ cs = w ++ lexeme.rest ∧
      (Lexical.token.sticky (c :: w) = true → Halts lexeme.rest) ∧
      (Lexical.token.pointing (c :: w) = true → NoDigit lexeme.rest) ∧
      ∀ rest, Near lexeme.rest rest →
        (Lexical.token.sticky (c :: w) = true → Parts lexeme.rest rest) →
        (Lexical.token.pointing (c :: w) = true → NoDigit rest) →
          lexeme? (c :: (w ++ rest)) pos = some { lexeme with rest := rest } := by
  by_cases opening : isOpening c = true
  · simp only [isOpening, Bool.or_eq_true, beq_iff_eq] at opening
    rcases opening with (((rfl | rfl) | rfl) | rfl) | rfl
    case inl.inl.inl.inl =>
      obtain ⟨breaks, w, -, closed, rfl, other⟩ :=
        wordLexeme_eq_some (show wordLexeme (fun text _ => .privateWord text) cs (pos + 1) = _ from h)
      refine ⟨w, closed.cons rfl, rfl, fun _ => breaks.halts, by simp [Lexical.pointing],
        fun rest _ parts _ => ?_⟩
      exact other rest ((parts rfl).breaks breaks)
    case inl.inl.inl.inr =>
      obtain ⟨w, rfl, other⟩ :=
        textLexeme_eq_some (by decide) (show textLexeme '\x27' cs pos = _ from h)
      refine ⟨w ++ ['\x27'], closed_last rfl ('\x27' :: w), by simp, fun sticky => ?_,
        by simp [Lexical.pointing], fun rest _ _ _ => ?_⟩
      · cases (show false = true from sticky)
      · rw [List.append_assoc]
        exact other rest
    case inl.inl.inr =>
      obtain ⟨w, rfl, other⟩ :=
        textLexeme_eq_some (by decide) (show textLexeme '"' cs pos = _ from h)
      refine ⟨w ++ ['"'], closed_last rfl ('"' :: w), by simp, fun sticky => ?_,
        by simp [Lexical.pointing], fun rest _ _ _ => ?_⟩
      · cases (show false = true from sticky)
      · rw [List.append_assoc]
        exact other rest
    case inl.inr => exact lexeme?_dot h
    case inr =>
      obtain ⟨breaks, w, nonempty, closed, whole, other⟩ :=
        wordLexeme_eq_some (show wordLexeme .word ('\\' :: cs) pos = _ from h)
      obtain ⟨w, rfl, rfl⟩ := List.append_eq_cons_iff.1 whole.symm |>.resolve_left
        (fun none => nonempty none.1)
      refine ⟨w, closed, rfl, fun _ => breaks.halts, by simp [Lexical.pointing],
        fun rest _ parts _ => ?_⟩
      exact other rest ((parts rfl).breaks breaks)
  · rw [Bool.not_eq_true] at opening
    rw [lexeme?_plain opening] at h
    split at h
    next digit =>
      obtain ⟨ends, w, closed, whole, other⟩ := numberLexeme_eq_some h
      rcases List.append_eq_cons_iff.1 whole.symm with ⟨rfl, same⟩ | ⟨w, rfl, rfl⟩
      · rw [same] at ends
        simp [endsNumeral, digit] at ends
      · have sticky : Lexical.token.sticky (c :: w) = true := by
          rw [sticky_plain opening, digit]
          rfl
        have own := not_pointing_plain opening (by rw [digit, Bool.true_or]) w
        refine ⟨w, closed, rfl, fun _ => halts_of_endsNumeral ends, by simp [own],
          fun rest near parts _ => ?_⟩
        rw [lexeme?_plain opening, if_pos digit]
        exact other rest (near.ends (parts sticky) ends)
    next other =>
      split at h
      next letter =>
        obtain ⟨breaks, w, nonempty, closed, whole, more⟩ := wordLexeme_eq_some h
        obtain ⟨w, rfl, rfl⟩ := List.append_eq_cons_iff.1 whole.symm |>.resolve_left
          (fun none => nonempty none.1)
        have sticky : Lexical.token.sticky (c :: w) = true := by
          rw [sticky_plain opening, letter, Bool.or_true]
        have own := not_pointing_plain opening (by rw [letter, Bool.or_true]) w
        refine ⟨w, closed, rfl, fun _ => breaks.halts, by simp [own],
          fun rest _ parts _ => ?_⟩
        rw [lexeme?_plain opening, if_neg other, if_pos letter]
        exact more rest ((parts sticky).breaks breaks)
      next mark =>
        obtain ⟨w, nonempty, closed, whole, point, more⟩ := markLexeme_eq_some h
        obtain ⟨w, rfl, rfl⟩ := List.append_eq_cons_iff.1 whole.symm |>.resolve_left
          (fun none => nonempty none.1)
        rw [← pointing_plain opening] at point more
        refine ⟨w, closed, rfl, fun sticky => ?_, point, fun rest near _ noDigit => ?_⟩
        · rw [sticky_plain opening, Bool.or_eq_true] at sticky
          exact absurd sticky (not_or.2 ⟨other, mark⟩)
        · rw [lexeme?_plain opening, if_neg other, if_neg mark]
          exact more rest near noDigit

/-! ## Items of all kinds -/

theorem scanOperator_eq_some {cs rest : List Char} (h : scanOperator cs = some rest) :
    ∃ w, w ≠ [] ∧ Closed w ∧ cs = w ++ rest ∧
      ∀ rest', Near rest rest' → scanOperator (w ++ rest') = some rest' := by
  have apart (c : Char) {r rest' : List Char} (going : isGoing c = true)
      (other : ∀ s, r = c :: s → False) (near : Near r rest') (s : List Char) :
      rest' = c :: s → False := by
    rintro rfl
    obtain ⟨s', same⟩ := List.head?_eq_some_iff.1 ((near.head going).2 rfl)
    exact other s' same
  fun_cases scanOperator cs with
  | case1 r =>
    obtain rfl := Option.some.inj h
    exact ⟨['<', '<', '='], by simp, closed_of_all (by decide), rfl, fun _ _ => rfl⟩
  | case2 r assign =>
    rw [scanOperator] at h
    · obtain rfl := Option.some.inj h
      refine ⟨['<', '<'], by simp, closed_of_all (by decide), rfl, fun rest' near => ?_⟩
      rw [List.cons_append, List.cons_append, List.nil_append, scanOperator]
      exact apart '=' rfl assign near
    · exact assign
  | case3 r =>
    obtain rfl := Option.some.inj h
    exact ⟨['<', '='], by simp, closed_of_all (by decide), rfl, fun _ _ => rfl⟩
  | case4 r shiftAssign shift assign =>
    rw [scanOperator] at h
    · obtain rfl := Option.some.inj h
      refine ⟨['<'], by simp, closed_of_all (by decide), rfl, fun rest' near => ?_⟩
      rw [List.cons_append, List.nil_append, scanOperator]
      · exact fun s => apart '<' rfl shift near ('=' :: s)
      · exact apart '<' rfl shift near
      · exact apart '=' rfl assign near
    · exact shiftAssign
    · exact shift
    · exact assign
  | case5 r =>
    obtain rfl := Option.some.inj h
    exact ⟨['>', '>', '>', '='], by simp, closed_of_all (by decide), rfl, fun _ _ => rfl⟩
  | case6 r assign =>
    rw [scanOperator] at h
    · obtain rfl := Option.some.inj h
      refine ⟨['>', '>', '>'], by simp, closed_of_all (by decide), rfl, fun rest' near => ?_⟩
      rw [List.cons_append, List.cons_append, List.cons_append, List.nil_append, scanOperator]
      exact apart '=' rfl assign near
    · exact assign
  | case7 r =>
    obtain rfl := Option.some.inj h
    exact ⟨['>', '>', '='], by simp, closed_of_all (by decide), rfl, fun _ _ => rfl⟩
  | case8 r unsignedAssign unsigned assign =>
    rw [scanOperator] at h
    · obtain rfl := Option.some.inj h
      refine ⟨['>', '>'], by simp, closed_of_all (by decide), rfl, fun rest' near => ?_⟩
      rw [List.cons_append, List.cons_append, List.nil_append, scanOperator]
      · exact fun s => apart '>' rfl unsigned near ('=' :: s)
      · exact apart '>' rfl unsigned near
      · exact apart '=' rfl assign near
    · exact unsignedAssign
    · exact unsigned
    · exact assign
  | case9 r =>
    obtain rfl := Option.some.inj h
    exact ⟨['>', '='], by simp, closed_of_all (by decide), rfl, fun _ _ => rfl⟩
  | case10 r unsignedAssign unsigned shiftAssign shift assign =>
    rw [scanOperator] at h
    · obtain rfl := Option.some.inj h
      refine ⟨['>'], by simp, closed_of_all (by decide), rfl, fun rest' near => ?_⟩
      rw [List.cons_append, List.nil_append, scanOperator]
      · exact fun s => apart '>' rfl shift near ('>' :: '=' :: s)
      · exact fun s => apart '>' rfl shift near ('>' :: s)
      · exact fun s => apart '>' rfl shift near ('=' :: s)
      · exact apart '>' rfl shift near
      · exact apart '=' rfl assign near
    all_goals assumption
  | case11 =>
    rw [scanOperator] at h
    · cases h
    all_goals assumption

/-- An item is taken without what follows it, and whatever follows that is near it and goes on no word
and no point. -/
theorem rest?_eq_some {goal : Lexical} {cs rest : List Char} (h : goal.rest? cs = some rest) :
    ∃ w, cs = w ++ rest ∧ (goal ≠ .markupText → w ≠ []) ∧ (goal ≠ .markupText → Closed w) ∧
      (goal.sticky w = true → Halts rest) ∧ (goal.pointing w = true → NoDigit rest) ∧
      ∀ rest', Near rest rest' → (goal.sticky w = true → Parts rest rest') →
        (goal.pointing w = true → NoDigit rest') → goal.rest? (w ++ rest') = some rest' := by
  cases goal with
  | token =>
    cases cs with
    | nil => cases h
    | cons c cs =>
      obtain ⟨lexeme, found, rfl⟩ := Option.map_eq_some_iff.1 h
      obtain ⟨w, closed, rfl, halts, noDigit, other⟩ := lexeme?_eq_some found
      refine ⟨c :: w, rfl, by simp, fun _ => closed, halts, noDigit,
        fun rest' near parts noDigit' => ?_⟩
      rw [List.cons_append, Lexical.rest?, other rest' near parts noDigit']
      rfl
  | regex =>
    cases cs with
    | nil => cases h
    | cons c cs =>
      by_cases slash : c = '/'
      · subst slash
        obtain ⟨⟨rest, stop⟩, found, rfl⟩ := Option.map_eq_some_iff.1 h
        obtain ⟨ends, w, closed, rfl, other⟩ := scanRegex_eq_some found
        refine ⟨'/' :: w, rfl, by simp, fun _ => closed.cons rfl, fun _ => halts_of_endsNumeral ends,
          by simp [Lexical.pointing], fun rest' _ parts _ => ?_⟩
        rw [List.cons_append, Lexical.rest?, other rest' (parts rfl)]
        rfl
      · rw [Lexical.rest?] at h
        · cases h
        all_goals
          intros
          simp_all
  | operator =>
    obtain ⟨w, nonempty, closed, rfl, other⟩ := scanOperator_eq_some h
    exact ⟨w, rfl, fun _ => nonempty, fun _ => closed, by simp [Lexical.sticky],
      by simp [Lexical.pointing], fun rest' near _ _ => other rest' near⟩
  | template =>
    obtain ⟨stretch, found, rfl⟩ := Option.map_eq_some_iff.1 h
    obtain ⟨w, last, rfl, closing, other⟩ := scanTemplate_eq_some found
    have plain : isNewline last = false := by rcases closing with rfl | rfl <;> rfl
    refine ⟨w ++ [last], by simp, by simp, fun _ => closed_last plain w, by simp [Lexical.sticky],
      by simp [Lexical.pointing], ?_⟩
    intro rest' _ _ _
    obtain ⟨valid, again⟩ := other true rest'
    rw [List.append_assoc, Lexical.rest?]
    exact congrArg _ again
  | tagWord =>
    cases cs with
    | nil => cases h
    | cons c cs =>
      rw [Lexical.rest?] at h
      split at h
      next letter =>
        cases found : Parse.scanTagWord [] (c :: cs) 0 with
        | mk text more =>
          obtain ⟨behind, stop⟩ := more
          obtain ⟨stops, w, closed, whole, other⟩ := scanTagWord_eq found
          rw [found] at h
          obtain rfl : behind = rest := Option.some.inj h
          rcases List.append_eq_cons_iff.1 whole.symm with ⟨-, same⟩ | ⟨w, rfl, rfl⟩
          · have part := (stops c (by rw [same]; rfl)).1
            rw [isNamePart_of_isNameStart letter] at part
            cases part
          · refine ⟨c :: w, rfl, by simp, fun _ => closed, fun _ => ?_, by simp [Lexical.pointing],
              fun rest' near parts _ => ?_⟩
            · exact halts_of_parts fun d mem => (stops d mem).1
            · have stops' : ∀ d ∈ rest'.head?, isNamePart d = false ∧ d ≠ '-' := by
                rcases parts rfl with same | breaks
                · exact fun d mem => stops d (same ▸ mem)
                · intro d mem
                  refine ⟨(breaks d mem).1, ?_⟩
                  rintro rfl
                  exact (stops '-' ((near.head (by decide)).2 mem)).2 rfl
              rw [List.cons_append, Lexical.rest?, if_pos letter, ← List.cons_append,
                other rest' stops']
      · cases h
  | attributeText =>
    cases cs with
    | nil => cases h
    | cons quote cs =>
      rw [Lexical.rest?] at h
      split at h
      next quoted =>
        obtain ⟨⟨rest, stop⟩, found, rfl⟩ := Option.map_eq_some_iff.1 h
        obtain ⟨w, rfl, other⟩ := attributeText_eq_some found
        have plain : isNewline quote = false :=
          not_newline (p := fun c => c == '"' || c == '\x27') rfl rfl quoted
        refine ⟨quote :: (w ++ [quote]), by simp, by simp, fun _ => closed_last plain (quote :: w),
          by simp [Lexical.sticky], by simp [Lexical.pointing], ?_⟩
        intro rest' _ _ _
        rw [List.cons_append, Lexical.rest?, if_pos quoted, List.append_assoc]
        exact congrArg _ (other rest')
      · cases h
  | markupText =>
    obtain ⟨⟨rest, stop⟩, found, rfl⟩ := Option.map_eq_some_iff.1 h
    obtain ⟨opening, w, rfl, other⟩ := scanMarkupText_eq_some found
    refine ⟨w, rfl, fun other => absurd rfl other, fun other => absurd rfl other, by simp [Lexical.sticky],
      by simp [Lexical.pointing], fun rest' near _ _ => ?_⟩
    have same : rest'.head? = rest.head? := by
      rcases opening with brace | tag
      · rw [brace, (near.head (by decide)).1 brace]
      · rw [tag, (near.head (by decide)).1 tag]
    rw [Lexical.rest?, other rest' same]
    rfl

end BundlePrep.Script
