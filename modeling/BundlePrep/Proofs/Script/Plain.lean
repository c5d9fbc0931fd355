import BundlePrep.Proofs.Script.Pieces

/-!
# Items that are read plainly

What a reader takes where no name goes on, where a text in quotes closes, and where a sign stands. The
items of an expression are read plainly up to its first substitution or markup: a template behind a
backquote, and elsewhere a token, a regular expression or an operator.
-/

set_option autoImplicit false

namespace BundlePrep.Script

open BundlePrep.Text

/-! ## What a scanner steps over -/

inductive Unbroken (quote : Char) : List Char → Prop
  | nil : Unbroken quote []
  | escape {c : Char} {cs : List Char} : (c = '\r' → cs.head? ≠ some '\n') → Unbroken quote cs →
      Unbroken quote ('\\' :: c :: cs)
  | continued {cs : List Char} : Unbroken quote cs → Unbroken quote ('\\' :: '\r' :: '\n' :: cs)
  | plain {c : Char} {cs : List Char} : c ≠ quote → c ≠ '\\' →
      (quote ≠ '\x60' → c ≠ '\n' ∧ c ≠ '\r') → (quote = '\x60' → c = '$' → cs.head? ≠ some '{') →
      Unbroken quote cs → Unbroken quote (c :: cs)

theorem head?_append_ne {cs tail : List Char} {c d : Char} (h : cs.head? ≠ some d) (other : c ≠ d) :
    (cs ++ c :: tail).head? ≠ some d := by
  cases cs with
  | nil => exact fun same => other (Option.some.inj same)
  | cons => exact h

theorem scanQuoted_unbroken {quote : Char} (plain : quote = '\x27' ∨ quote = '"') {body : List Char}
    (h : Unbroken quote body) (acc tail : List Char) :
    (scanQuoted quote acc (body ++ quote :: tail)).map (·.2) = some tail := by
  have other : quote ≠ '\\' ∧ quote ≠ '\n' ∧ quote ≠ '\x60' := by
    rcases plain with rfl | rfl <;> decide
  induction h generalizing acc with
  | nil => rw [List.nil_append, scanQuoted_plain other.1, if_pos (by simp), Option.map_some]
  | @escape c cs alone _ ih =>
    rw [List.cons_append, List.cons_append, scanQuoted]
    · exact ih _
    · rintro ds rfl same
      exact head?_append_ne (alone rfl) other.2.1 (by rw [same]; rfl)
  | continued _ ih => exact ih _
  | @plain c cs noQuote backslash line _ _ ih =>
    obtain ⟨feed, ret⟩ := line other.2.2
    rw [List.cons_append, scanQuoted_plain backslash, if_neg (by simpa using noQuote),
      if_neg (by simp [backslash, feed, ret])]
    exact ih _

theorem scanTemplate_unbroken {body : List Char} (h : Unbroken '\x60' body) (valid : Bool)
    (tail : List Char) (pos : Nat) :
    (scanTemplate valid (body ++ '\x60' :: tail) pos).map (·.rest) = some tail := by
  induction h generalizing valid pos with
  | nil => rfl
  | escape _ _ ih => exact ih _ _
  | continued _ ih => exact ih _ _
  | @plain c cs noQuote backslash _ alone _ ih =>
    rw [List.cons_append, scanTemplate]
    · exact ih _ _
    · exact noQuote
    · rintro ds rfl same
      exact head?_append_ne (alone rfl rfl) (show '\x60' ≠ '{' by decide) (by rw [same]; rfl)
    · exact fun _ _ same => absurd same backslash

/-! ## Items without substitutions and markup -/

def Piece.isBackquote (p : Piece) : Bool := p.goal == .token && p.text == ['\x60']

def Piece.opens (p : Piece) : Bool :=
  if p.goal = .template then p.text.getLast? == some '{' else p.text.head? == some '<'

def Plainly : Bool → List Piece → Prop
  | _, [] => True
  | quoted, p :: ps =>
    (if quoted then p.goal = .template else p.goal ∈ [.token, .regex, .operator]) ∧
      (p.opens = true ∨ Plainly p.isBackquote ps)

instance Plainly.decidable : (quoted : Bool) → (ps : List Piece) → Decidable (Plainly quoted ps)
  | _, [] => .isTrue trivial
  | quoted, p :: ps =>
    have := Plainly.decidable p.isBackquote ps
    inferInstanceAs (Decidable ((if quoted then p.goal = .template else
      p.goal ∈ [.token, .regex, .operator]) ∧ (p.opens = true ∨ Plainly p.isBackquote ps)))

def signs : List Char :=
  ['#', '\x27', '"', '\\', '.', '{', '}', '(', ')', '[', ']', ';', ',', ':', '@', '\x60', '<', '>', '~',
    '?', '=', '!', '+', '-', '*', '/', '%', '&', '|', '^']

theorem scan_eq_none {c : Char} (h : c ∉ signs) (cs : List Char) : Mark.scan (c :: cs) = none := by
  unfold Mark.scan
  split
  all_goals first | rfl | (rename_i same; cases same; exact absurd (by decide) h)

theorem not_isOpening_of_sign {c : Char} (h : c ∉ signs) : isOpening c = false := by
  rw [Bool.eq_false_iff]
  intro opening
  simp only [isOpening, Bool.or_eq_true, beq_iff_eq] at opening
  rcases opening with (((rfl | rfl) | rfl) | rfl) | rfl <;> exact h (by decide)

theorem token_of_rest? {goal : Lexical} (plain : goal ∈ [.token, .regex, .operator]) {c : Char}
    (sign : c ∉ signs) {cs rest : List Char} (read : goal.rest? (c :: cs) = some rest) :
    goal = .token := by
  simp only [List.mem_cons, List.not_mem_nil, or_false] at plain
  rcases plain with rfl | rfl | rfl
  · rfl
  · rw [Lexical.rest?] at read
    · cases read
    all_goals
      intros
      try contradiction
    rename_i same
    cases same
    exact absurd (by decide) sign
  · rw [Lexical.rest?] at read
    unfold scanOperator at read
    split at read
    all_goals first | (rename_i same; cases same; exact absurd (by decide) sign) | cases read

theorem rest?_eq_none {goal : Lexical} (plain : goal ∈ [.token, .regex, .operator]) {c : Char}
    (sign : c ∉ signs) (digit : c.isDigit = false) (start : isNameStart c = false) (cs : List Char) :
    goal.rest? (c :: cs) = none := by
  rw [Option.eq_none_iff_forall_ne_some]
  intro rest read
  obtain rfl := token_of_rest? plain sign read
  rw [Lexical.rest?, lexeme?_plain (not_isOpening_of_sign sign), digit, start, if_neg (by decide),
    if_neg (by decide), markLexeme, scan_eq_none sign] at read
  cases read

theorem rest?_word {c : Char} (sign : c ∉ signs) (digit : c.isDigit = false) {cs R rest : List Char}
    (plain : '\\' ∉ cs) (breaks : Breaks R)
    (read : Lexical.token.rest? (c :: (cs ++ R)) = some rest) :
    rest = R ∨ ∃ u d v, cs = u ++ d :: v ∧ isNamePart d = false ∧ rest = d :: (v ++ R) := by
  by_cases start : isNameStart c = true
  · rw [Lexical.rest?, lexeme?_plain (not_isOpening_of_sign sign), digit, start, if_neg (by decide),
      if_pos rfl, wordLexeme, scanWord_letter start] at read
    have ends {w rest' : List Char} (parts : ∀ d ∈ w, isNamePart d = true) (more : Breaks rest')
        (whole : cs ++ R = w ++ rest') : rest = rest' := by
      have backslash : ∀ d ∈ w, isNamePart d = true ∧ d ≠ '\\' := fun d mem =>
        ⟨parts d mem, fun same => absurd (parts d mem) (by rw [same]; decide)⟩
      obtain ⟨word, scanned, nonempty, rfl⟩ :=
        scanWord_parts [c] (by simp) backslash more (0 + c.utf8Size)
      rw [whole] at read
      simp only [scanned, Option.bind_eq_bind, Option.bind_some] at read
      rw [if_neg (by simpa using nonempty)] at read
      exact (Option.some.inj read).symm
    have split := List.takeWhile_append_dropWhile (p := isNamePart) (l := cs)
    cases further : cs.dropWhile isNamePart with
    | nil => exact .inl (ends (List.dropWhile_eq_nil_iff.1 further) breaks rfl)
    | cons d v =>
      rw [further] at split
      have other : isNamePart d = false := by
        have head := List.head?_dropWhile_not isNamePart cs
        rw [further] at head
        simpa using head
      refine .inr ⟨_, d, v, split.symm, other, ?_⟩
      refine ends (fun e mem => List.mem_takeWhile_imp mem) (w := cs.takeWhile isNamePart) ?_ ?_
      · intro e mem
        obtain rfl : d = e := by simpa using mem
        refine ⟨other, ?_⟩
        rintro rfl
        exact plain (split ▸ by simp)
      · conv_lhs => rw [← split]
        simp
  · rw [rest?_eq_none (by decide) sign digit (by simpa using start)] at read
    cases read

theorem rest?_quoted {goal : Lexical} (other : goal ∈ [.token, .regex, .operator]) {quote : Char}
    (plain : quote = '\x27' ∨ quote = '"') {body : List Char} (unbroken : Unbroken quote body)
    {tail rest : List Char} (read : goal.rest? (quote :: (body ++ quote :: tail)) = some rest) :
    goal = .token ∧ rest = tail := by
  have scanned := scanQuoted_unbroken plain unbroken [] tail
  simp only [List.mem_cons, List.not_mem_nil, or_false] at other
  rcases other with rfl | rfl | rfl
  · have lexed : lexeme? (quote :: (body ++ quote :: tail)) 0 =
        textLexeme quote (body ++ quote :: tail) 0 := by
      rcases plain with rfl | rfl <;> rfl
    obtain ⟨⟨written, behind⟩, found, rfl⟩ := Option.map_eq_some_iff.1 scanned
    rw [Lexical.rest?, lexed, textLexeme, found] at read
    simp only [Option.bind_eq_bind, Option.bind_some] at read
    obtain ⟨lexeme, decoded, rfl⟩ := Option.map_eq_some_iff.1 read
    obtain ⟨_, -, same⟩ := Option.bind_eq_some_iff.1 decoded
    obtain rfl := Option.some.inj same
    exact ⟨rfl, rfl⟩
  · rcases plain with rfl | rfl <;> cases read
  · rcases plain with rfl | rfl <;> cases read

/-! ## What stands where a gap ends -/

theorem Reads.beyond {last : List Char} {newline : Bool} {ps more : List Piece} {p : Piece}
    (h : Reads last newline (ps ++ p :: more)) : Reads last false more := by
  induction ps generalizing newline with
  | nil => exact h.2.2
  | cons q ps ih => exact ih h.2.2

theorem not_comments_of_skipGap {newline legacy : Bool} {inside : Inside} {cs : List Char} {pos : Nat}
    {gap : Gap} (h : skipGap newline legacy inside cs pos = some gap) : ¬Comments false gap.rest := by
  fun_induction skipGap newline legacy inside cs pos with
  | case1 => cases h
  | case2 =>
    obtain rfl := Option.some.inj h
    simp [Comments]
  | case3 _ _ _ _ _ _ ih | case4 _ _ _ _ _ _ ih | case5 _ _ _ _ ih | case6 _ _ _ _ _ _ ih
  | case7 _ _ _ _ ih | case8 _ _ _ _ ih | case9 _ _ _ _ ih | case10 _ _ _ ih
  | case12 _ _ _ _ _ _ _ _ _ _ ih | case13 _ _ _ _ _ _ _ _ _ _ _ ih => exact ih h
  | case11 =>
    obtain rfl := Option.some.inj h
    simp [Comments]
  | case14 newline legacy c cs pos line block markup close =>
    obtain rfl := Option.some.inj h
    rintro (⟨ds, same⟩ | ⟨ds, same⟩ | ⟨ds, same⟩ | ⟨newline, -⟩)
    · obtain ⟨rfl, rfl⟩ := List.cons.inj same
      exact line ds rfl rfl
    · obtain ⟨rfl, rfl⟩ := List.cons.inj same
      exact block ds rfl rfl
    · obtain ⟨rfl, rfl⟩ := List.cons.inj same
      exact markup ds rfl rfl
    · cases newline

theorem behindGap?_again {newline : Bool} {cs rest : List Char}
    (h : behindGap? newline cs = some rest) (nonempty : rest ≠ []) :
    behindGap? false rest = some rest := by
  have begins := behindGap?_begins h nonempty
  obtain ⟨gap, skipped, rfl⟩ := Option.map_eq_some_iff.1 h
  exact congrArg (Option.map (·.rest)) (skipGap_here begins (not_comments_of_skipGap skipped) false 0)

theorem Reads.without_gap {last : List Char} {newline : Bool} {p : Piece} {ps : List Piece}
    (h : Reads last newline (p :: ps)) : Reads last false ({ p with gap := [] } :: ps) := by
  obtain ⟨skips, item, more⟩ := h
  refine ⟨?_, item, more⟩
  by_cases gapped : p.goal.gapped = true
  · rw [if_pos gapped] at skips
    rw [if_pos gapped]
    exact behindGap?_again skips (by simp [Item.text_ne_nil item (Lexical.ne_markupText gapped)])
  · rw [if_neg gapped]

end BundlePrep.Script
