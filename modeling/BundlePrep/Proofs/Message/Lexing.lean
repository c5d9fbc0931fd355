import BundlePrep.Proofs.Message.Members
import BundlePrep.Proofs.Script.Plain

/-!
# The items of a key

The language cuts the text of a key into items before it knows of what expression they are. As far as
it finds nothing in the comments of a key, its items are the tokens of the key: an item ends where the
token ends, and where a word goes on in what is no part of a name, the script is not read at all. So no
item of a key that is accepted opens a parenthesis.
-/

set_option autoImplicit false

namespace BundlePrep.Message.Grammar

open BundlePrep.Text
open BundlePrep.Script (Breaks Lexical Plainly Unbroken behindGap? lexeme? rest?_eq_none rest?_quoted
  rest?_word scanTemplate_unbroken signs skipGap skipGap_char skipGap_eq_some skipGap_line skipGap_rest
  token_of_rest?)

/-! ## Tokens that do not run together -/

def Token.clings : Token → Bool
  | .word _ => true
  | .mark '+' => true
  | _ => false

def Loose : List Token → Prop
  | [] => True
  | t :: ts => (t.clings = true → ∃ u ∈ ts.head?, u.clings = false) ∧ Loose ts

theorem Loose.append {a b : List Token} (ha : Loose a) (hb : Loose b) : Loose (a ++ b) := by
  induction a with
  | nil => exact hb
  | cons t a ih =>
    refine ⟨fun clings => ?_, ih ha.2⟩
    obtain ⟨u, head, other⟩ := ha.1 clings
    exact ⟨u, List.mem_head?_append_of_mem_head? head, other⟩

theorem Loose.cons {t : Token} {ts : List Token} (free : t.clings = false) (h : Loose ts) :
    Loose (t :: ts) :=
  ⟨fun clings => absurd (free.symm.trans clings) (by decide), h⟩

theorem Chain.loose {ts : List Token} {value : List Char} (h : Chain ts value) : Loose ts := by
  induction h with
  | one => exact .cons rfl trivial
  | @more _ _ _ _ ts chain ih =>
    refine .cons rfl ⟨fun _ => ?_, ih⟩
    cases chain with
    | one => exact ⟨_, rfl, rfl⟩
    | more => exact ⟨_, rfl, rfl⟩

theorem Items.loose {α : Type} {item : List Token → α → Prop} (each : ∀ ts a, item ts a → Loose ts)
    {ts : List Token} {as : List α} (h : Items item ts as) : Loose ts := by
  induction h with
  | nil => trivial
  | last own => exact each _ _ own
  | more own _ ih => exact (each _ _ own).append (.cons rfl ih)

theorem clings_mark {c : Char} (other : c ≠ '+') : (Token.mark c).clings = false := by
  unfold Token.clings
  split
  next same => cases same
  next same => exact absurd (Token.mark.inj same) other
  next => rfl

theorem Enclosed.loose {α : Type} {item : List Token → α → Prop}
    (each : ∀ ts a, item ts a → Loose ts) {opening closing : Char}
    (free : opening ≠ '+' ∧ closing ≠ '+') {ts : List Token} {as : List α}
    (h : Enclosed opening closing item ts as) : Loose ts := by
  obtain ⟨inner, rfl, items⟩ := h
  exact .cons (clings_mark free.1) ((items.loose each).append (.cons (clings_mark free.2) trivial))

theorem Declares.loose {ts : List Token} {p : Property} (h : Declares ts p) : Loose ts := by
  obtain ⟨-, assigned⟩ := h
  refine ⟨fun _ => ⟨_, rfl, rfl⟩, .cons rfl ?_⟩
  cases assigned with
  | text chain => exact chain.loose
  | list enclosed => exact enclosed.loose (fun _ _ => Chain.loose) (by decide)

theorem Denotes.loose {ts : List Token} {key : Key} (h : Denotes ts key) : Loose ts := by
  cases h with
  | plain chain => exact chain.loose
  | described enclosed => exact enclosed.loose (fun _ _ => Declares.loose) (by decide)

/-! ## What stands between quotes -/

theorem unbroken_append {quote : Char} (quoted : isQuote quote = true) {w cs : List Char}
    (inert : ∀ c ∈ w, isQuote c = false ∧ c ∉ ['\\', '\n', '\r', '$']) (h : Unbroken quote cs) :
    Unbroken quote (w ++ cs) := by
  induction w with
  | nil => exact h
  | cons c w ih =>
    obtain ⟨⟨noQuote, other⟩, more⟩ := List.forall_mem_cons.1 inert
    simp only [List.mem_cons, List.not_mem_nil, or_false, not_or] at other
    refine .plain ?_ other.1 (fun _ => ⟨other.2.1, other.2.2.1⟩)
      (fun _ dollar => absurd dollar other.2.2.2) (ih more)
    rintro rfl
    cases quoted.symm.trans noQuote

theorem inert_of_hexNumber? {digits : List Char} {n : Nat} (h : hexNumber? digits = some n) :
    ∀ c ∈ digits, isQuote c = false ∧ c ∉ ['\\', '\n', '\r', '$'] := by
  intro c mem
  have digit := isSome_of_hexNumber? h c mem
  constructor
  · by_contra quoted
    rcases isQuote_cases ((Bool.not_eq_false _).mp quoted) with rfl | rfl | rfl <;> cases digit
  · intro mem
    have none : ∀ c ∈ ['\\', '\n', '\r', '$'], (hexValue? c).isSome = false := by decide
    cases (none c mem).symm.trans digit

theorem Code.inert {r : Rules} {digits : List Char} {n : Nat} (h : Code r digits n) :
    ∀ c ∈ digits, isQuote c = false ∧ c ∉ ['\\', '\n', '\r', '$'] := by
  have brace : ∀ c ∈ ['{', '}', '+'], isQuote c = false ∧ c ∉ ['\\', '\n', '\r', '$'] := by decide
  cases h with
  | four _ number => exact inert_of_hexNumber? number
  | braced _ number =>
    intro c mem
    simp only [List.mem_cons, List.mem_append, List.not_mem_nil, or_false] at mem
    rcases mem with rfl | mem | rfl
    · exact brace _ (by decide)
    · exact inert_of_hexNumber? number c mem
    · exact brace _ (by decide)
  | signed _ _ number =>
    intro c mem
    simp only [List.mem_cons, List.mem_append, List.not_mem_nil, or_false] at mem
    rcases mem with rfl | rfl | mem | rfl
    · exact brace _ (by decide)
    · exact brace _ (by decide)
    · exact inert_of_hexNumber? number c mem
    · exact brace _ (by decide)

theorem Body.unbroken {r : Rules} {quote : Char} (quoted : isQuote quote = true)
    {body value : List Char} (h : Body r quote body value) : Unbroken quote body := by
  have other {c : Char} (h : c ≠ '\r') {cs : List Char} : c = '\r' → cs.head? ≠ some '\n' :=
    fun same => absurd same h
  induction h with
  | nil => exact .nil
  | raw noQuote backslash line dollar _ _ ih => exact .plain noQuote backslash line dollar ih
  | @escape e cs _ _ escape _ ih =>
    cases escape with
    | @letter c _ mem =>
      refine .escape ?_ ih
      rintro rfl
      simp [letters] at mem
    | zero => exact .escape (other (by decide)) ih
    | lineFeed => exact .escape (other (by decide)) ih
    | carriageReturn alone => exact .escape (fun _ => alone) ih
    | carriageReturnLineFeed => exact .continued ih
    | byte _ number =>
      exact .escape (other (by decide)) (unbroken_append quoted (inert_of_hexNumber? number) ih)
    | code code => exact .escape (other (by decide)) (unbroken_append quoted code.inert ih)
    | pair first second =>
      rw [List.cons_append, List.append_assoc]
      refine .escape (other (by decide)) (unbroken_append quoted first.inert ?_)
      exact .escape (other (by decide)) (unbroken_append quoted second.inert ih)
    | @other c plain _ _ =>
      refine .escape ?_ ih
      rintro rfl
      exact absurd plain (by decide)

/-! ## Items for tokens -/

theorem rest?_mark {goal : Lexical} (plain : goal ∈ [.token, .regex, .operator]) {c : Char}
    (own : c ∈ '\x60' :: marks) {cs rest : List Char}
    (apart : c = '+' → ∀ d ∈ cs.head?, (d == '+' || d == '=') = false)
    (read : goal.rest? (c :: cs) = some rest) : goal = .token ∧ rest = cs := by
  simp only [List.mem_cons, List.not_mem_nil, or_false] at plain
  simp only [marks, List.mem_cons, List.not_mem_nil, or_false] at own
  rcases plain with rfl | rfl | rfl
  · refine ⟨rfl, ?_⟩
    rcases own with rfl | rfl | rfl | rfl | rfl | rfl | rfl | rfl
    case inr.inl =>
      cases cs with
      | nil => exact (Option.some.inj read).symm
      | cons d cs =>
        have other := apart rfl d rfl
        simp only [Bool.or_eq_false_iff, beq_eq_false_iff_ne] at other
        have scanned : Script.Mark.scan ('+' :: d :: cs) = some (.plus, 1, d :: cs) := by
          rw [Script.Mark.scan]
          · rintro ds same
            exact other.1 (List.cons.inj same).1
          · rintro ds same
            exact other.2 (List.cons.inj same).1
        have lexed : lexeme? ('+' :: d :: cs) 0 = Script.markLexeme ('+' :: d :: cs) 0 := rfl
        rw [Lexical.rest?, lexed, Script.markLexeme, scanned] at read
        exact (Option.some.inj read).symm
    all_goals exact (Option.some.inj read).symm
  · rcases own with rfl | rfl | rfl | rfl | rfl | rfl | rfl | rfl <;> cases read
  · rcases own with rfl | rfl | rfl | rfl | rfl | rfl | rfl | rfl <;> cases read

theorem sign_of_part {c : Char} (h : isWordPart c = true) : c ∉ signs := by
  intro sign
  have none : ∀ c ∈ signs, isWordPart c = false := by decide +kernel
  cases (none c sign).symm.trans h

theorem not_isDigit_of_start {c : Char} (h : isWordStart c = true) : c.isDigit = false := by
  rw [Bool.eq_false_iff]
  intro digit
  simp only [Char.isDigit, Bool.and_eq_true, decide_eq_true_eq] at digit
  have low : 48 ≤ c.toNat := digit.1
  have high : c.toNat < 58 := Nat.lt_of_le_of_lt (show c.toNat ≤ 57 from digit.2) (by decide)
  have none : ∀ n < 58, 48 ≤ n → isWordStart (Char.ofNat n) = false := by decide +kernel
  have own := none c.toNat high low
  rw [Char.ofNat_toNat, h] at own
  cases own

theorem apart_next {t : Token} {ps : List Piece} (loose : Loose (t :: tokens ps))
    (clings : t.clings = true) (sound : ∀ p ∈ ps, p.Sound silent) {part : Char → Bool}
    (white : ∀ c, isWhiteSpace c = true → part c = false) (slash : part '/' = false)
    (others : ∀ c, isQuote c = true ∨ c ∈ marks ∧ c ≠ '+' → part c = false) (rest : List Char) :
    ∀ d ∈ (spell ps ++ rest).head?, part d = false := by
  obtain ⟨u, head, free⟩ := loose.1 clings
  cases ps with
  | nil => cases head
  | cons p ps =>
    obtain rfl : p.token = u := Option.some.inj head
    obtain ⟨gap, token⟩ := sound p (List.mem_cons_self ..)
    rw [spell_cons, List.append_assoc, List.append_assoc]
    cases own : p.token with
    | literal quote body value =>
      rw [own] at token
      exact apart_of_gap gap white slash (others quote (.inl token.1)) _
    | word text =>
      rw [own] at free
      cases free
    | mark c =>
      rw [own] at token free
      refine apart_of_gap gap white slash (others c (.inr ⟨token, ?_⟩)) _
      rintro rfl
      cases free

theorem opens_append (text rest : List Char) : Script.Opens (text ++ rest) text := by
  refine ⟨fun newline comments => ?_, fun head => ?_⟩
  · rcases comments with ⟨cs, rfl⟩ | ⟨cs, rfl⟩ | ⟨cs, rfl⟩ | ⟨start, cs, rfl⟩
    · exact .inl ⟨cs ++ rest, rfl⟩
    · exact .inr (.inl ⟨cs ++ rest, rfl⟩)
    · exact .inr (.inr (.inl ⟨cs ++ rest, rfl⟩))
    · exact .inr (.inr (.inr ⟨start, cs ++ rest, rfl⟩))
  · rw [List.head?_append, head]
    rfl

theorem behindGap?_silent {tail : List Char} (h : Ending silent tail) {newline : Bool}
    {rest found : List Char} (skips : behindGap? newline (tail ++ rest) = some found)
    (nonempty : found ≠ []) : found.length ≤ rest.length ∨ found.head? = some '\x85' := by
  have inside {newline : Bool} {cs : List Char} (skips : behindGap? newline cs = some found) :
      found.length ≤ cs.length := by
    obtain ⟨gap, skipped, rfl⟩ := Option.map_eq_some_iff.1 skips
    obtain ⟨-, w, rfl, -⟩ := skipGap_eq_some skipped nonempty
    simp
  cases h with
  | gap gap =>
    rcases behindGap?_gap gap newline rest with ⟨newline', same⟩ | ⟨more, same⟩
    · exact .inl (inside (same.symm.trans skips))
    · obtain rfl := Option.some.inj (same.symm.trans skips)
      exact .inr rfl
  | @comment cs text gap _ allowed =>
    rw [List.append_assoc] at skips
    rcases behindGap?_gap gap newline ('/' :: '/' :: text ++ rest) with ⟨newline', same⟩ | ⟨more, same⟩
    · refine .inl ?_
      rw [same, behindGap?, List.cons_append, List.cons_append, skipGap] at skips
      obtain ⟨gap, skipped, rfl⟩ := Option.map_eq_some_iff.1 skips
      obtain ⟨begins, w, whole, other⟩ := skipGap_eq_some skipped nonempty
      rcases List.append_eq_append_iff.1 whole with ⟨t, rfl, same'⟩ | ⟨t, rfl, same'⟩
      · rw [same', List.length_append]
        omega
      · -- The language would stop in the comment without what stands behind it, too.
        by_contra longer
        have stops := other t (same' ▸ opens_append t rest) fun c mem =>
          begins c (same' ▸ List.mem_head?_append_of_mem_head? mem)
        have silent := (skipGap_line newline' false false (w ++ t) 2).symm.trans
          (congrArg (Option.map (·.rest)) stops)
        rw [skipGap_rest false false false _ _ 2 0, allowed] at silent
        obtain rfl := Option.some.inj silent
        rw [same'] at longer
        exact longer (Nat.le_refl _)
    · obtain rfl := Option.some.inj (same.symm.trans skips)
      exact .inr rfl

theorem gapped_of_plain {goal : Lexical} (plain : goal ∈ [.token, .regex, .operator]) :
    goal.gapped = true := by
  simp only [List.mem_cons, List.not_mem_nil, or_false] at plain
  rcases plain with rfl | rfl | rfl <;> rfl

theorem head_of_rest? {goal : Lexical} (plain : goal ∈ [.token, .regex, .operator])
    {text rest : List Char} (read : goal.rest? text = some rest) : text.head? ≠ some '\x85' := by
  intro head
  obtain ⟨cs, rfl⟩ := List.head?_eq_some_iff.1 head
  rw [rest?_eq_none plain (by decide) (by decide) (not_isNameStart (.inl rfl))] at read
  cases read

theorem not_reads_stray {last : List Char} {newline : Bool} {q : Script.Piece}
    {qs : List Script.Piece} (reads : Script.Reads last newline (q :: qs))
    (plain : q.goal ∈ [.token, .regex, .operator]) {d : Char} (part : isWordPart d = true)
    (other : isNamePart d = false) {cs : List Char} : Script.spell last (q :: qs) ≠ d :: cs := by
  intro whole
  obtain ⟨skips, read, -⟩ := reads
  rw [if_pos (gapped_of_plain plain), ← Script.spell, whole] at skips
  obtain ⟨lineEnd, blank⟩ := not_isGap part
  have apart : d ≠ '/' ∧ d ≠ '<' ∧ d ≠ '-' := by
    refine ⟨?_, ?_, ?_⟩ <;> rintro rfl <;> exact absurd part (by decide)
  rw [behindGap?, skipGap_char apart, lineEnd, blank, if_neg (by decide), if_neg (by decide)] at skips
  have start : isNameStart d = false := by
    by_contra start
    cases other.symm.trans (isNamePart_of_isNameStart ((Bool.not_eq_false _).mp start))
  have digit : d.isDigit = false := by
    by_contra digit
    cases other.symm.trans (Script.isNamePart_of_isDigit ((Bool.not_eq_false _).mp digit))
  rw [← Option.some.inj skips, rest?_eq_none plain (sign_of_part part) digit start] at read
  cases read

theorem reads_first {last : List Char} {newline : Bool} {q : Script.Piece}
    {qs after : List Script.Piece} (reads : Script.Reads last newline (q :: qs ++ after)) :
    (if q.goal.gapped then
        behindGap? newline (Script.spell [] (q :: qs) ++ Script.spell last after) =
          some (q.text ++ (Script.spell [] qs ++ Script.spell last after))
      else q.gap = []) ∧
      q.goal.rest? (q.text ++ (Script.spell [] qs ++ Script.spell last after)) =
        some (Script.spell [] qs ++ Script.spell last after) ∧
      Script.Reads last false (qs ++ after) := by
  rw [List.cons_append] at reads
  obtain ⟨skips, read, more⟩ := reads
  have behind : Script.spell last (qs ++ after) =
      Script.spell [] qs ++ Script.spell last after := by
    rw [Script.spell_append]
    exact Script.spell_tail [] _ qs
  rw [behind] at skips read
  refine ⟨?_, read, more⟩
  rw [Script.spell, List.append_assoc, List.append_assoc]
  exact skips

theorem reads_template {last body rest : List Char} {newline : Bool} {q : Script.Piece}
    {qs after : List Script.Piece} (reads : Script.Reads last newline (q :: qs ++ after))
    (goal : q.goal = .template) (unbroken : Unbroken '\x60' body)
    (whole : Script.spell [] (q :: qs) ++ Script.spell last after = body ++ '\x60' :: rest) :
    ¬q.opens = true ∧ Script.spell [] qs ++ Script.spell last after = rest ∧
      Script.Reads last false (qs ++ after) := by
  obtain ⟨gap, read, more⟩ := reads_first reads
  rw [goal, if_neg (by decide)] at gap
  rw [Script.spell, gap, List.nil_append, List.append_assoc] at whole
  rw [goal, Lexical.rest?, whole, scanTemplate_unbroken unbroken] at read
  obtain rfl := Option.some.inj read
  have text : q.text = body ++ ['\x60'] := by
    rw [List.append_cons] at whole
    exact List.append_cancel_right whole
  exact ⟨by simp [Script.Piece.opens, goal, text], rfl, more⟩

theorem head_of_token {r : Rules} {t : Token} (h : t.Sound r) : ∃ c cs, t.text = c :: cs ∧
    c ∉ ['(', '<'] ∧ (c = '\x60' → ∃ body value, t = .literal '\x60' body value) := by
  cases t with
  | literal quote body value =>
    refine ⟨quote, _, rfl, ?_, by rintro rfl; exact ⟨body, value, rfl⟩⟩
    rcases isQuote_cases h.1 with rfl | rfl | rfl <;> decide
  | word text =>
    obtain ⟨c, cs, rfl, start, -⟩ := h
    refine ⟨c, cs, rfl, ?_, ?_⟩
    · intro mem
      have none : ∀ c ∈ ['(', '<'], isWordStart c = false := by decide
      cases (none c mem).symm.trans start
    · rintro rfl
      exact absurd start (by decide)
  | mark c =>
    have all : ∀ c ∈ marks, c ∉ ['(', '<'] ∧ c ≠ '\x60' := by decide
    exact ⟨c, [], rfl, (all c h).1, fun same => absurd same (all c h).2⟩

/-- The item that is read where a token stands: it ends with the token, or in a word where a character
stands that the language has in no name, or behind the backquote of a template. -/
theorem item_of_token {goal : Lexical} (plain : goal ∈ [.token, .regex, .operator]) {t : Token}
    (own : t.Sound silent) {ps : List Piece} (sound : ∀ p ∈ ps, p.Sound silent)
    (loose : Loose (t :: tokens ps)) {more rest : List Char}
    (read : goal.rest? (t.text ++ (spell ps ++ more)) = some rest) :
    goal = .token ∧ (rest = spell ps ++ more ∨
      (∃ text d cs, t = .word text ∧ isWordPart d = true ∧ isNamePart d = false ∧ rest = d :: cs) ∨
      ∃ body value, t = .literal '\x60' body value ∧ rest = body ++ '\x60' :: (spell ps ++ more)) := by
  have quote (part : Char → Bool) (none : ∀ c ∈ ['\x27', '"', '\x60', ',', ':', '{', '}', '[', ']'],
      part c = false) : ∀ c, isQuote c = true ∨ c ∈ marks ∧ c ≠ '+' → part c = false := by
    rintro c (quoted | ⟨mark, plus⟩)
    · rcases isQuote_cases quoted with rfl | rfl | rfl <;> exact none _ (by decide)
    · simp only [marks, List.mem_cons, List.not_mem_nil, or_false] at mark
      exact none c (by simp only [List.mem_cons, List.not_mem_nil, or_false]; tauto)
  cases t with
  | mark c =>
    have apart : c = '+' → ∀ d ∈ (spell ps ++ more).head?, (d == '+' || d == '=') = false := by
      rintro rfl
      refine apart_next loose rfl sound (fun d white => ?_) rfl (quote _ (by decide)) more
      simp only [Bool.or_eq_false_iff, beq_eq_false_iff_ne]
      constructor <;> rintro rfl <;> cases white
    obtain ⟨token, ends⟩ := rest?_mark plain (List.mem_cons_of_mem _ own) apart read
    exact ⟨token, .inl ends⟩
  | word text =>
    obtain ⟨c, cs, rfl, start, parts⟩ := own
    have sign := sign_of_part (isWordPart_of_start start)
    have letters := List.all_eq_true.1 parts
    have breaks : Breaks (spell ps ++ more) := by
      intro d mem
      have other : ∀ e ∈ (spell ps ++ more).head?, (e == '\\') = false := by
        refine apart_next loose rfl sound (fun e white => ?_) rfl (quote _ (by decide)) more
        rw [beq_eq_false_iff_ne]
        rintro rfl
        cases white
      exact ⟨apart_next loose rfl sound (fun d => not_isNamePart) (by decide)
        (quote _ (by decide)) more d mem, by simpa using other d mem⟩
    have backslash : '\\' ∉ cs := fun mem => absurd (letters _ mem) (by decide)
    obtain rfl := token_of_rest? plain sign read
    refine ⟨rfl, (rest?_word sign (not_isDigit_of_start start) backslash breaks read).imp_right ?_⟩
    rintro ⟨u, d, v, rfl, other, rfl⟩
    exact .inl ⟨_, d, _, rfl, letters d (by simp), other, rfl⟩
  | literal quote body value =>
    obtain ⟨quoted, whole⟩ := own
    have text : (Token.literal quote body value).text ++ (spell ps ++ more) =
        quote :: (body ++ quote :: (spell ps ++ more)) := by simp [Token.text]
    rw [text] at read
    rcases isQuote_cases quoted with plainQuote | plainQuote | rfl
    · obtain ⟨token, ends⟩ := rest?_quoted plain (.inl plainQuote) (whole.unbroken quoted) read
      exact ⟨token, .inl ends⟩
    · obtain ⟨token, ends⟩ := rest?_quoted plain (.inr plainQuote) (whole.unbroken quoted) read
      exact ⟨token, .inl ends⟩
    · obtain ⟨token, ends⟩ := rest?_mark plain (List.mem_cons_self ..)
        (fun same => absurd same (by decide)) read
      exact ⟨token, .inr (.inr ⟨body, value, rfl, ends⟩)⟩

/-- An item that begins as a token begins opens neither a parenthesis nor markup, and it is a backquote
only where the token is a template. -/
theorem plainly_behind {t : Token} (own : t.Sound silent) {q : Script.Piece} {qs : List Script.Piece}
    (token : q.goal = .token) (plain : Plainly false (q :: qs)) {rest behind : List Char}
    (whole : t.text ++ rest = q.text ++ behind) (nonempty : q.text ≠ []) :
    q.text ≠ ['('] ∧ Plainly q.isBackquote qs ∧
      (q.isBackquote = true → ∃ body value, t = .literal '\x60' body value) := by
  obtain ⟨c, cs, text, other, template⟩ := head_of_token own
  obtain ⟨d, ds, same⟩ := List.exists_cons_of_ne_nil nonempty
  rw [text, same] at whole
  obtain rfl : c = d := (List.cons.inj whole).1
  simp only [List.mem_cons, List.not_mem_nil, or_false, not_or] at other
  refine ⟨?_, plain.2.resolve_left ?_, fun backquote => template ?_⟩
  · rw [same]
    exact fun paren => other.1 (List.cons.inj paren).1
  · simp [Script.Piece.opens, token, same, other.2]
  · simp only [Script.Piece.isBackquote, Bool.and_eq_true, beq_iff_eq, same] at backquote
    exact (List.cons.inj backquote.2).1

/-- Where a token stands an item is read that opens no parenthesis. Behind it the items are at an end, or
they go on where the next token stands, behind a template if there is one. -/
theorem reads_token {tail last : List Char} {q : Script.Piece} {qs after : List Script.Piece}
    {p : Piece} {ps : List Piece} {newline : Bool} (own : p.Sound silent)
    (others : ∀ p ∈ ps, p.Sound silent) (loose : Loose (tokens (p :: ps)))
    (reads : Script.Reads last newline (q :: qs ++ after)) (plain : Plainly false (q :: qs))
    (whole : Script.spell [] (q :: qs) = spell (p :: ps) ++ tail) :
    (q.goal = .token ∧ q.text ≠ ['(']) ∧ ∃ templates rest, qs = templates ++ rest ∧
      (∀ r ∈ templates, r.goal = .template) ∧ (rest = [] ∨ Script.Reads last false (rest ++ after) ∧
        Plainly false rest ∧ Script.spell [] rest = spell ps ++ tail) := by
  obtain ⟨skips, read, more⟩ := reads_first reads
  have goal : q.goal ∈ [.token, .regex, .operator] := plain.1
  have gapped := gapped_of_plain goal
  have nonempty := Script.Item.text_ne_nil read (Script.Lexical.ne_markupText gapped)
  rw [if_pos gapped, whole, spell_cons] at skips
  simp only [List.append_assoc] at skips
  have front := token_of_behindGap? own skips (head_of_rest? goal read)
  obtain ⟨token, ends⟩ := item_of_token goal own.token others loose (front ▸ read)
  obtain ⟨paren, behind, template⟩ := plainly_behind own.token token plain front nonempty
  refine ⟨⟨token, paren⟩, ?_⟩
  have noBackquote (other : ∀ body value, p.token = .literal '\x60' body value → q.text ≠ ['\x60']) :
      q.isBackquote = false := by
    by_contra backquote
    rw [Bool.not_eq_false] at backquote
    obtain ⟨body, value, literal⟩ := template backquote
    simp only [Script.Piece.isBackquote, Bool.and_eq_true, beq_iff_eq] at backquote
    exact other body value literal backquote.2
  rcases ends with ends | ⟨text, d, cs, word, part, other, ends⟩ | ⟨body, value, literal, ends⟩
  · -- the item is the token
    have same : p.token.text = q.text := by
      rw [ends] at front
      exact List.append_cancel_right front
    rw [← List.append_assoc] at ends
    rw [noBackquote fun body value literal => by simp [← same, literal, Token.text]] at behind
    exact ⟨[], qs, rfl, by simp, .inr ⟨more, behind, List.append_cancel_right ends⟩⟩
  · -- the item is a part of a word, in whose rest no item begins
    rw [noBackquote fun body value literal => by cases word.symm.trans literal] at behind
    cases qs with
    | nil => exact ⟨[], [], rfl, by simp, .inl rfl⟩
    | cons q' qs =>
      have stray : Script.spell last (q' :: qs ++ after) = d :: cs := by
        rw [Script.spell_append]
        exact (Script.spell_tail [] _ _).trans ends
      exact absurd stray (not_reads_stray more behind.1 part other)
  · -- the item is the backquote in front of a template
    have text : isQuote '\x60' = true ∧ Body silent '\x60' body value := by
      have sound := own.token
      rwa [literal] at sound
    have same : q.text = ['\x60'] := by
      rw [ends, literal, Token.text, List.cons_append, List.append_assoc] at front
      exact (List.append_cancel_right (show ['\x60'] ++ _ = _ from front)).symm
    have backquote : q.isBackquote = true := by simp [Script.Piece.isBackquote, token, same]
    rw [backquote] at behind
    cases qs with
    | nil => exact ⟨[], [], rfl, by simp, .inl rfl⟩
    | cons q' qs =>
      have goal' : q'.goal = .template := behind.1
      obtain ⟨closed, rest, more⟩ := reads_template more goal' (text.2.unbroken text.1) ends
      have plain : Plainly q'.isBackquote qs := behind.2.resolve_left closed
      rw [show q'.isBackquote = false by simp [Script.Piece.isBackquote, goal']] at plain
      rw [← List.append_assoc] at rest
      exact ⟨[q'], qs, rfl, by simpa using goal', .inr ⟨more, plain, List.append_cancel_right rest⟩⟩

theorem not_reads_ending {tail last : List Char} (ending : Ending silent tail) {q : Script.Piece}
    {qs after : List Script.Piece} {newline : Bool} (plain : Plainly false (q :: qs))
    (reads : Script.Reads last newline (q :: qs ++ after)) : Script.spell [] (q :: qs) ≠ tail := by
  intro whole
  obtain ⟨skips, read, -⟩ := reads_first reads
  have goal : q.goal ∈ [.token, .regex, .operator] := plain.1
  have gapped := gapped_of_plain goal
  have nonempty := Script.Item.text_ne_nil read (Script.Lexical.ne_markupText gapped)
  rw [if_pos gapped, whole] at skips
  rcases behindGap?_silent ending skips (by simp [nonempty]) with short | white
  · have := List.length_pos_iff.2 nonempty
    simp only [List.length_append] at short
    omega
  · exact absurd white (head_of_rest? goal read)

/-- The items of a key that is written with nothing in its comments are tokens and templates, and none
of them opens a parenthesis. -/
theorem plain_items {tail last : List Char} {after : List Script.Piece} (ending : Ending silent tail)
    {ps : List Piece} {qs : List Script.Piece} {newline : Bool} (sound : ∀ p ∈ ps, p.Sound silent)
    (loose : Loose (tokens ps)) (reads : Script.Reads last newline (qs ++ after))
    (plain : Plainly false qs) (whole : Script.spell [] qs = spell ps ++ tail) :
    ∀ q ∈ qs, q.goal = .template ∨ q.goal = .token ∧ q.text ≠ ['('] := by
  induction ps generalizing qs newline with
  | nil =>
    cases qs with
    | nil => simp
    | cons q qs => exact absurd whole (not_reads_ending ending plain reads)
  | cons p ps ih =>
    cases qs with
    | nil => simp
    | cons q qs =>
      obtain ⟨own, others⟩ := List.forall_mem_cons.1 sound
      obtain ⟨first, templates, rest, rfl, all, further⟩ :=
        reads_token own others loose reads plain whole
      refine List.forall_mem_cons.2 ⟨.inr first, List.forall_mem_append.2 ⟨fun r mem => ?_, ?_⟩⟩
      · exact .inl (all r mem)
      · rcases further with rfl | ⟨more, plain, whole⟩
        · simp
        · exact ih others loose.2 more plain whole

end BundlePrep.Message.Grammar
