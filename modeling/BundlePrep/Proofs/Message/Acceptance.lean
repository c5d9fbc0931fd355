import BundlePrep.Proofs.Message.Derivation
import BundlePrep.Proofs.Message.Value

/-!
# Derivations are read

What is written as the accepted grammar tells is read, to the value that the grammar gives it. So the
texts that are read are those of the accepted grammar, and those of the documented one as far as no
signed code stands in them.
-/

set_option autoImplicit false

namespace BundlePrep.Message.Grammar

open BundlePrep.Text

/-! ## White space and comments -/

theorem skipFrom_line_append {text : List Char} (inline : '\n' ∉ text) (rest : List Char) :
    skipFrom .lineComment (text ++ '\n' :: rest) = skip rest := by
  induction text with
  | nil => rfl
  | cons c text ih =>
    obtain ⟨own, others⟩ := List.ne_and_not_mem_of_not_mem_cons inline
    rw [List.cons_append, show skipFrom .lineComment (c :: (text ++ '\n' :: rest)) = skipFrom
      (if c = '\n' then .tokens else .lineComment) (text ++ '\n' :: rest) from rfl,
      if_neg own.symm, ih others]

theorem skipFrom_line_end {text : List Char} (inline : '\n' ∉ text) :
    skipFrom .lineComment text = .ok [] := by
  induction text with
  | nil => rfl
  | cons c text ih =>
    obtain ⟨own, others⟩ := List.ne_and_not_mem_of_not_mem_cons inline
    rw [show skipFrom .lineComment (c :: text) = skipFrom
      (if c = '\n' then .tokens else .lineComment) text from rfl, if_neg own.symm, ih others]

theorem skipFrom_block_char {c : Char} {cs start : List Char} (other : c = '*' → cs.head? ≠ some '/') :
    skipFrom (.blockComment start) (c :: cs) = skipFrom (.blockComment start) cs := by
  conv => lhs; unfold skipFrom
  split <;> grind

theorem skipFrom_block_append {start text : List Char} (inside : ¬['*', '/'] <:+: text)
    (rest : List Char) : skipFrom (.blockComment start) (text ++ '*' :: '/' :: rest) = skip rest := by
  induction text with
  | nil => rfl
  | cons c text ih =>
    rw [List.infix_cons_iff, not_or] at inside
    rw [List.cons_append, skipFrom_block_char, ih inside.2]
    rintro rfl head
    cases text with
    | nil => cases head
    | cons d text =>
      obtain rfl : d = '/' := by simpa using head
      exact inside.1 ⟨text, rfl⟩

theorem skip_gap {r : Rules} {gap : List Char} (h : Gap r gap) (rest : List Char) :
    skip (gap ++ rest) = skip rest := by
  induction h with
  | nil => rfl
  | @blank c cs white _ ih =>
    have solid : c ≠ '/' := by
      rintro rfl
      cases white
    rw [List.cons_append, skip_char (fun same => absurd same solid) (fun same => absurd same solid),
      if_pos white, ih]
  | line inline _ _ ih =>
    rw [← ih, List.cons_append, List.cons_append, List.append_assoc, List.cons_append]
    exact skipFrom_line_append inline _
  | block inside _ ih =>
    rw [← ih, List.cons_append, List.cons_append, List.append_assoc, List.cons_append,
      List.cons_append]
    exact skipFrom_block_append inside _

theorem skip_ending {r : Rules} {cs : List Char} (h : Ending r cs) : skip cs = .ok [] := by
  cases h with
  | gap gap =>
    rw [← List.append_nil cs, skip_gap gap]
    rfl
  | comment gap inline _ =>
    rw [skip_gap gap]
    exact skipFrom_line_end inline

def whiteCodes : List Nat :=
  List.range' 0x09 5 ++ List.range' 0x2000 11 ++
    [0x20, 0x85, 0xa0, 0x1680, 0x2028, 0x2029, 0x202f, 0x205f, 0x3000]

theorem mem_whiteCodes {c : Char} (h : isWhiteSpace c = true) : c.toNat ∈ whiteCodes := by
  simp only [isWhiteSpace, Bool.or_eq_true, Bool.and_eq_true, decide_eq_true_eq, beq_iff_eq,
    Char.le_def, UInt32.le_iff_toNat_le, Char.toNat_val] at h
  have ends : '\x09'.toNat = 0x09 ∧ '\x0d'.toNat = 0x0d ∧ '\u2000'.toNat = 0x2000 ∧
    '\u200a'.toNat = 0x200a := by decide
  simp only [whiteCodes, List.mem_append, List.mem_range'_1]
  rcases h with ((((((((((h | rfl) | rfl) | rfl) | rfl) | h) | rfl) | rfl) | rfl) | rfl) | rfl)
  · exact .inl (.inl (by omega))
  all_goals first
    | exact .inl (.inr (by omega))
    | exact .inr (by decide)

theorem inRanges_eq (ranges : Array (Nat × Nat)) (code : Nat) :
    inRanges ranges code = ranges.toList.any fun r => Nat.ble r.1 code && Nat.ble code r.2 := by
  rw [inRanges, ← Array.any_toList]
  congr 1
  funext r
  rw [Bool.eq_iff_iff]
  simp

theorem not_isWordPart {c : Char} (h : isWhiteSpace c = true ∨ c = '\ufeff') : isWordPart c = false := by
  have mem : c.toNat ∈ 0xfeff :: whiteCodes := by
    rcases h with white | rfl
    · exact List.mem_cons_of_mem _ (mem_whiteCodes white)
    · exact List.mem_cons_self ..
  have beyond : ∀ n ∈ 0xfeff :: whiteCodes, (alphabeticRanges.toList ++ numericRanges.toList).any
      (fun r => Nat.ble r.1 n && Nat.ble n r.2) = false := by decide +kernel
  have within : ∀ n ∈ 0xfeff :: whiteCodes, (Char.ofNat n).isAlphanum = false ∧ Char.ofNat n ≠ '_' ∧
      Char.ofNat n ≠ '$' := by decide
  have outside := beyond c.toNat mem
  obtain ⟨plain, low, dollar⟩ := within c.toNat mem
  rw [Char.ofNat_toNat] at plain low dollar
  rw [List.any_append, ← inRanges_eq, ← inRanges_eq, Bool.or_eq_false_iff] at outside
  rw [Char.isAlphanum, Bool.or_eq_false_iff] at plain
  simp [isWordPart, isAlphabetic, isNumeric, plain, outside, low, dollar]

/-! ## Single tokens -/

theorem isWordPart_of_start {c : Char} (h : isWordStart c = true) : isWordPart c = true := by
  simp only [isWordStart, isWordPart, Bool.or_eq_true, beq_iff_eq] at *
  tauto

theorem skip_token {r : Rules} {t : Token} (h : t.Sound r) (rest : List Char) :
    skip (t.text ++ rest) = .ok (t.text ++ rest) := by
  have starts {c : Char} (solid : isWhiteSpace c = false) (slash : c ≠ '/') (cs : List Char) :
      skip (c :: cs) = .ok (c :: cs) := by
    rw [skip_char (fun same => absurd same slash) (fun same => absurd same slash), solid]
    rfl
  cases t with
  | literal quote body value =>
    rcases isQuote_cases h.1 with rfl | rfl | rfl <;> exact starts (by decide) (by decide) _
  | word text =>
    obtain ⟨c, cs, rfl, start, -⟩ := h
    refine starts ?_ ?_ _
    · by_contra white
      rw [Bool.not_eq_false] at white
      exact absurd ((not_isWordPart (.inl white)).symm.trans (isWordPart_of_start start)) (by decide)
    · rintro rfl
      exact absurd start (by decide)
  | mark c =>
    have all : ∀ c ∈ marks, isWhiteSpace c = false ∧ c ≠ '/' := by decide
    exact starts (all c h).1 (all c h).2 _

theorem skip_piece {r : Rules} {p : Piece} (h : p.Sound r) (rest : List Char) :
    skip (p.gap ++ (p.token.text ++ rest)) = .ok (p.token.text ++ rest) := by
  rw [skip_gap h.gap, skip_token h.token]

theorem expect_mark {r : Rules} {gap : List Char} (h : Gap r gap) {c : Char} (mark : c ∈ marks)
    (rest : List Char) : expect c (gap ++ c :: rest) = .ok rest := by
  have skipped := skip_piece (p := ⟨gap, .mark c⟩) ⟨h, mark⟩ rest
  unfold expect
  rw [show gap ++ c :: rest = gap ++ ((Token.mark c).text ++ rest) from rfl, skipped]
  simp [Token.text, bind, Except.bind]

/-! ## Texts -/

theorem readCode_code {digits : List Char} {n : Nat} (h : Code accepted digits n) (rest : List Char) :
    readCode (digits ++ rest) = some (n, rest) := by
  have plain {digits : List Char} {n : Nat} (number : hexNumber? digits = some n) :
      ∀ c ∈ digits, c ≠ '}' ∧ c ≠ '+' ∧ c ≠ '{' := by
    intro c mem
    have digit := isSome_of_hexNumber? number c mem
    refine ⟨?_, ?_, ?_⟩ <;> rintro rfl <;> cases digit
  cases h with
  | four size number =>
    rw [readCode]
    · exact size ▸ readHex_append number rest
    · rintro cs begins
      obtain ⟨d, digits, rfl⟩ := List.exists_cons_of_length_eq_add_one size
      exact (plain number d (List.mem_cons_self ..)).2.2 (List.cons.inj begins).1
  | @braced digits _ nonempty number low =>
    rw [List.cons_append, List.append_assoc, List.singleton_append, readCode]
    exact readBraced_append number nonempty
      (fun c mem => ⟨(plain number c mem).1, (plain number c mem).2.1⟩) low rest
  | @signed digits _ _ nonempty number low =>
    rw [List.cons_append, List.cons_append, List.append_assoc, List.singleton_append, readCode]
    exact readBraced_written ('+' :: digits) number nonempty
      (List.forall_mem_cons.2 ⟨by decide, fun c mem => (plain number c mem).1⟩) low rest

theorem readEscape_escape {e out rest : List Char} (h : Escape accepted rest e out) :
    readEscape (e ++ rest) = some (out, rest) := by
  cases h with
  | letter mem =>
    simp only [letters, List.mem_cons, Prod.mk.injEq, List.not_mem_nil, or_false] at mem
    rcases mem with ⟨rfl, rfl⟩ | ⟨rfl, rfl⟩ | ⟨rfl, rfl⟩ | ⟨rfl, rfl⟩ | ⟨rfl, rfl⟩ | ⟨rfl, rfl⟩ <;> rfl
  | zero alone => exact (readEscape_zero rest).trans (if_pos alone)
  | lineFeed => rfl
  | carriageReturn alone =>
    cases rest with
    | nil => rfl
    | cons d rest =>
      rw [List.singleton_append, readEscape]
      rintro cs same
      exact alone (congrArg List.head? same)
  | carriageReturnLineFeed => rfl
  | @byte digits _ size number =>
    have read : readHex 2 (digits ++ rest) = some (_, rest) := size ▸ readHex_append number rest
    simp [readEscape, read]
  | code code valid =>
    have single (n : Nat) (valid : n.isValidChar) : ¬(0xd800 ≤ n ∧ n < 0xdc00) := by
      rcases valid with valid | valid <;> omega
    simp [readEscape, readCode_code code rest, readSurrogates, single _ valid, valid]
  | @pair first second _ _ one other high low =>
    have behind := readCode_code one ('\\' :: 'u' :: (second ++ rest))
    rw [List.cons_append, List.append_assoc, List.cons_append, List.cons_append]
    simp [readEscape, behind, readSurrogates, high, readCode_code other rest, low]
  | @other c plain digit _ =>
    simp only [List.mem_cons, List.not_mem_nil, or_false, not_or] at plain
    obtain ⟨n, r, t, b, f, v, x, u, lineFeed, carriageReturn⟩ := plain
    have nonzero : c ≠ '0' := by
      rintro rfl
      cases digit
    rw [List.singleton_append,
      readEscape_other lineFeed carriageReturn ⟨n, t, r, b, f, v, x, u⟩ nonzero, digit]
    rfl

theorem Escape.extend {r : Rules} {quote : Char} {cs e out : List Char} (quoted : isQuote quote = true)
    (h : Escape r cs e out) (rest : List Char) : Escape r (cs ++ quote :: rest) e out := by
  have head {d : Char} (own : (cs ++ quote :: rest).head? = some d) : cs.head? = some d ∨ d = quote := by
    cases cs with
    | nil => exact .inr (Option.some.inj own).symm
    | cons c cs => exact .inl own
  cases h with
  | letter mem => exact .letter mem
  | zero alone =>
    refine .zero fun d mem => ?_
    rcases head mem with own | rfl
    · exact alone d own
    · rcases isQuote_cases quoted with rfl | rfl | rfl <;> rfl
  | lineFeed => exact .lineFeed
  | carriageReturn alone =>
    refine .carriageReturn fun mem => ?_
    rcases head mem with own | rfl
    · exact alone own
    · cases quoted
  | carriageReturnLineFeed => exact .carriageReturnLineFeed
  | byte size number => exact .byte size number
  | code code valid => exact .code code valid
  | pair first second high low => exact .pair first second high low
  | other plain digit allowed => exact .other plain digit allowed

theorem readBody_body {quote : Char} {body value : List Char} (quoted : isQuote quote = true)
    (h : Body accepted quote body value) (start rest : List Char) :
    readBody quote start (body ++ quote :: rest) = .ok (value, rest) := by
  induction h with
  | nil => rw [List.nil_append, readBody, if_pos rfl]
  | @raw c cs value other backslash line interpolation _ _ ih =>
    rw [List.cons_append, readBody_raw other backslash, ih]
    · rfl
    · rintro ⟨back, dollar, head⟩
      cases cs with
      | nil =>
        obtain rfl : quote = '{' := by simpa using head
        cases quoted
      | cons d cs => exact interpolation back dollar head
    · rintro ⟨plain, ends | ends⟩
      · exact (line plain).1 ends
      · exact (line plain).2 ends
  | escape escape _ ih =>
    have read := readEscape_escape (escape.extend quoted rest)
    rw [List.cons_append, List.append_assoc, readBody_escape (isQuote_ne quoted) read, ih]
    rfl

/-! ## Chains -/

theorem readNextText_literal {gap body value : List Char} {quote : Char}
    (h : Piece.Sound accepted ⟨gap, .literal quote body value⟩) (rest : List Char) :
    readNextText (gap ++ ((Token.literal quote body value).text ++ rest)) = .ok (value, rest) := by
  have read := readBody_body h.token.1 h.token.2 (quote :: (body ++ quote :: rest)) rest
  rw [readNextText, skip_piece h]
  simpa [bind, Except.bind, Token.text, readText, h.token.1] using read

theorem tokens_eq_nil {ps : List Piece} (h : tokens ps = []) : ps = [] := List.map_eq_nil_iff.1 h

theorem tokens_eq_cons {ps : List Piece} {t : Token} {ts : List Token} (h : tokens ps = t :: ts) :
    ∃ gap qs, ps = ⟨gap, t⟩ :: qs ∧ tokens qs = ts := by
  obtain ⟨⟨gap, t⟩, qs, rfl, rfl, rfl⟩ := List.map_eq_cons_iff.1 h
  exact ⟨gap, qs, rfl, rfl⟩

theorem readChain_step {gap gap' body value : List Char} {quote : Char} {ps : List Piece}
    (sound : ∀ p ∈ (⟨gap, .mark '+'⟩ : Piece) :: ⟨gap', .literal quote body value⟩ :: ps,
      p.Sound accepted) (acc after : List Char) :
    readChain acc (spell (⟨gap, .mark '+'⟩ :: ⟨gap', .literal quote body value⟩ :: ps) ++ after) =
      readChain (acc ++ value) (spell ps ++ after) := by
  obtain ⟨plus, others⟩ := List.forall_mem_cons.1 sound
  have read := readNextText_literal (others _ (List.mem_cons_self ..)) (spell ps ++ after)
  have begins := skip_piece plus (spell (⟨gap', .literal quote body value⟩ :: ps) ++ after)
  rw [spell_cons, List.append_assoc, List.append_assoc]
  refine readChain_plus begins ?_
  rwa [spell_cons, List.append_assoc, List.append_assoc]

section

variable {after behind : List Char} (skipped : skip after = .ok behind)
  (plus : behind.head? ≠ some '+')
include skipped plus

theorem readChain_chain {ps : List Piece} {ts : List Token} {value : List Char}
    (sound : ∀ p ∈ ps, p.Sound accepted) (same : tokens ps = .mark '+' :: ts) (chain : Chain ts value)
    (acc : List Char) : readChain acc (spell ps ++ after) = .ok (acc ++ value, behind) := by
  induction chain generalizing ps acc with
  | one =>
    obtain ⟨gap, qs, rfl, literal⟩ := tokens_eq_cons same
    obtain ⟨gap', rs, rfl, none⟩ := tokens_eq_cons literal
    obtain rfl := tokens_eq_nil none
    rw [readChain_step sound]
    exact readChain_end skipped plus
  | more chain ih =>
    obtain ⟨gap, qs, rfl, literal⟩ := tokens_eq_cons same
    obtain ⟨gap', rs, rfl, rest⟩ := tokens_eq_cons literal
    have others : ∀ p ∈ rs, p.Sound accepted := fun p mem =>
      sound p (List.mem_cons_of_mem _ (List.mem_cons_of_mem _ mem))
    rw [readChain_step sound, ih others rest, List.append_assoc]

theorem readValue_chain {ps : List Piece} {value : List Char} (sound : ∀ p ∈ ps, p.Sound accepted)
    (chain : Chain (tokens ps) value) : readValue (spell ps ++ after) = .ok (value, behind) := by
  have first {gap body value : List Char} {quote : Char} {qs : List Piece}
      (sound : ∀ p ∈ (⟨gap, .literal quote body value⟩ : Piece) :: qs, p.Sound accepted) :
      readValue (spell (⟨gap, .literal quote body value⟩ :: qs) ++ after) =
        readChain value (spell qs ++ after) := by
    rw [readValue, spell_cons, List.append_assoc, List.append_assoc,
      readNextText_literal (sound _ (List.mem_cons_self ..))]
    rfl
  generalize same : tokens ps = ts at chain
  cases chain with
  | one =>
    obtain ⟨gap, qs, rfl, none⟩ := tokens_eq_cons same
    obtain rfl := tokens_eq_nil none
    rw [first sound]
    exact readChain_end skipped plus
  | more chain =>
    obtain ⟨gap, qs, rfl, rest⟩ := tokens_eq_cons same
    rw [first sound]
    exact readChain_chain skipped plus (fun p mem => sound p (List.mem_cons_of_mem _ mem)) rest chain _

end

/-! ## Lists and objects -/

def Token.Begins : Token → Prop
  | .literal .. => True
  | .word _ => True
  | .mark _ => False

def Opens (ts : List Token) : Prop := ∃ t more, ts = t :: more ∧ t.Begins

theorem Chain.opens {ts : List Token} {value : List Char} (h : Chain ts value) : Opens ts := by
  cases h with
  | one => exact ⟨_, [], rfl, trivial⟩
  | more => exact ⟨_, _, rfl, trivial⟩

theorem Declares.opens {ts : List Token} {p : Property} (h : Declares ts p) : Opens ts := by
  obtain ⟨name, -⟩ := h
  cases name with
  | word => exact ⟨_, _, rfl, trivial⟩
  | literal => exact ⟨_, _, rfl, trivial⟩

theorem head?_of_begins {r : Rules} {t : Token} (sound : t.Sound r) (begins : t.Begins) {c : Char}
    (mark : c ∈ marks) (rest : List Char) : (t.text ++ rest).head? ≠ some c := by
  have none : ∀ c ∈ marks, isQuote c = false ∧ isWordStart c = false := by decide
  obtain ⟨noQuote, noWord⟩ := none c mark
  cases t with
  | literal quote body value =>
    intro same
    obtain rfl : quote = c := by simpa [Token.text] using same
    exact absurd (noQuote.symm.trans sound.1) (by decide)
  | word text =>
    obtain ⟨d, cs, rfl, start, -⟩ := sound
    intro same
    obtain rfl : d = c := by simpa [Token.text] using same
    exact absurd (noWord.symm.trans start) (by decide)
  | mark d => cases begins

section

variable {α : Type} {close : Char} {item : List Char → Except Fault (Reading α)}
  {shorter : ∀ {cs rest : List Char} {a : α}, item cs = .ok (a, rest) → rest.length < cs.length}
  {form : List Token → α → Prop}

def ReadsItem (close : Char) (item : List Char → Except Fault (Reading α))
    (form : List Token → α → Prop) : Prop :=
  ∀ {t : Token} {ps : List Piece} {after rest : List Char} {a : α} {c : Char}, t.Sound accepted →
    (∀ p ∈ ps, p.Sound accepted) → form (t :: tokens ps) a → (c = ',' ∨ c = close) →
    skip after = .ok (c :: rest) →
    ∃ behind, item (t.text ++ (spell ps ++ after)) = .ok (a, behind) ∧ skip behind = .ok (c :: rest)

theorem readItems_items {ps : List Piece} {ts : List Token} {after rest : List Char} {as : List α}
    (mark : close ∈ marks) (comma : close ≠ ',') (opens : ∀ ts a, form ts a → Opens ts)
    (reads : ReadsItem close item form) (sound : ∀ p ∈ ps, p.Sound accepted)
    (same : tokens ps = ts) (items : Items form ts as) (ends : skip after = .ok (close :: rest)) :
    readItems close item shorter (spell ps ++ after) = .ok (as, rest) := by
  -- The first item, in front of a comma or of the closing character.
  have one {ps : List Piece} {ts : List Token} {after rest : List Char} {a : α} {c : Char}
      (sound : ∀ p ∈ ps, p.Sound accepted) (same : tokens ps = ts) (formed : form ts a)
      (own : c = ',' ∨ c = close) (ends : skip after = .ok (c :: rest)) :
      ∃ first behind, skip (spell ps ++ after) = .ok first ∧ first.head? ≠ some close ∧
        item first = .ok (a, behind) ∧ skip behind = .ok (c :: rest) := by
    obtain ⟨t, more, rfl, begins⟩ := opens ts a formed
    obtain ⟨gap, qs, rfl, rfl⟩ := tokens_eq_cons same
    obtain ⟨piece, others⟩ := List.forall_mem_cons.1 sound
    obtain ⟨behind, read, level⟩ := reads piece.token others formed own ends
    refine ⟨t.text ++ (spell qs ++ after), behind, ?_, head?_of_begins piece.token begins mark _,
      read, level⟩
    rw [spell_cons, List.append_assoc, List.append_assoc]
    exact skip_piece piece _
  induction items generalizing ps with
  | nil =>
    obtain rfl := tokens_eq_nil same
    exact readItems_close ends
  | last formed =>
    obtain ⟨first, behind, skipped, opens, read, level⟩ := one sound same formed (.inr rfl) ends
    rw [readItems_item skipped opens read level, if_neg comma, if_pos rfl]
  | more formed _ ih =>
    obtain ⟨ps, qs, rfl, own, others⟩ := List.map_eq_append_iff.1 same
    obtain ⟨gap, qs, rfl, further⟩ := tokens_eq_cons others
    obtain ⟨before, behind⟩ := List.forall_mem_append.1 sound
    obtain ⟨piece, behind⟩ := List.forall_mem_cons.1 behind
    have separated : skip (gap ++ ',' :: (spell qs ++ after)) = .ok (',' :: (spell qs ++ after)) :=
      skip_piece piece _
    have text : spell (ps ++ ⟨gap, .mark ','⟩ :: qs) ++ after =
        spell ps ++ (gap ++ ',' :: (spell qs ++ after)) := by
      simp [spell_append, spell_cons, Token.text]
    obtain ⟨first, behind', skipped, opens, read, level⟩ :=
      one before own formed (.inl rfl) separated
    rw [text, readItems_item skipped opens read level, if_pos rfl, ih behind further]
    rfl

variable (shorter) in
theorem readItems_enclosed {opening : Char} {ps : List Piece} (after : List Char) {as : List α}
    (own : opening ∈ marks ∧ close ∈ marks) (comma : close ≠ ',')
    (opens : ∀ ts a, form ts a → Opens ts) (reads : ReadsItem close item form)
    (sound : ∀ p ∈ ps, p.Sound accepted) (enclosed : Enclosed opening close form (tokens ps) as) :
    ∃ inner, expect opening (spell ps ++ after) = .ok inner ∧
      readItems close item shorter inner = .ok (as, after) := by
  obtain ⟨inner, same, items⟩ := enclosed
  obtain ⟨gap, qs, rfl, inside⟩ := tokens_eq_cons same
  obtain ⟨ps, qs, rfl, rfl, last⟩ := List.map_eq_append_iff.1 inside
  obtain ⟨gap', qs, rfl, none⟩ := tokens_eq_cons last
  obtain rfl := tokens_eq_nil none
  obtain ⟨first, others⟩ := List.forall_mem_cons.1 sound
  obtain ⟨before, behind⟩ := List.forall_mem_append.1 others
  have ends := skip_piece (behind _ (List.mem_cons_self ..)) after
  refine ⟨spell ps ++ (gap' ++ close :: after), ?_,
    readItems_items own.2 comma opens reads before rfl items ends⟩
  have begins := expect_mark first.gap own.1 (spell ps ++ (gap' ++ close :: after))
  simpa [spell_cons, spell_append, Token.text, spell] using begins

end

theorem readsItem_value : ReadsItem ']' readValue Chain := by
  intro t ps after rest value c sound others chain own ends
  have plus : (c :: rest).head? ≠ some '+' := by rcases own with rfl | rfl <;> simp
  have bare : ∀ p ∈ (⟨[], t⟩ : Piece) :: ps, p.Sound accepted :=
    List.forall_mem_cons.2 ⟨⟨.nil, sound⟩, others⟩
  have read := readValue_chain ends plus bare chain
  rw [spell_cons, List.append_assoc, List.append_assoc] at read
  obtain ⟨-, -, -, stops⟩ := skip_skipped ends
  exact ⟨c :: rest, read, stops⟩

theorem readList_enclosed {ps : List Piece} {after : List Char} {values : List (List Char)}
    (sound : ∀ p ∈ ps, p.Sound accepted) (enclosed : Enclosed '[' ']' Chain (tokens ps) values) :
    readList (spell ps ++ after) = .ok (values, after) := by
  obtain ⟨inner, opens, read⟩ := readItems_enclosed length_readValue after (by decide)
    (by decide) (fun _ _ => Chain.opens) readsItem_value sound enclosed
  rw [readList, opens]
  exact read

theorem skip_first {gap : List Char} {t : Token} {ps : List Piece}
    (sound : ∀ p ∈ (⟨gap, t⟩ : Piece) :: ps, p.Sound accepted) (after : List Char) :
    skip (spell (⟨gap, t⟩ :: ps) ++ after) = .ok (spell (⟨[], t⟩ :: ps) ++ after) ∧
      ∀ p ∈ (⟨[], t⟩ : Piece) :: ps, p.Sound accepted := by
  obtain ⟨own, others⟩ := List.forall_mem_cons.1 sound
  refine ⟨?_, List.forall_mem_cons.2 ⟨⟨.nil, own.token⟩, others⟩⟩
  rw [spell_cons, List.append_assoc, List.append_assoc, skip_piece own, spell_cons]
  simp

theorem head?_chain {t : Token} {ps : List Piece} {value : List Char}
    (sound : ∀ p ∈ (⟨[], t⟩ : Piece) :: ps, p.Sound accepted)
    (chain : Chain (tokens (⟨[], t⟩ :: ps)) value) {c : Char} (mark : c ∈ marks)
    (after : List Char) : (spell (⟨[], t⟩ :: ps) ++ after).head? ≠ some c := by
  obtain ⟨t', more, same, begins⟩ := chain.opens
  obtain ⟨rfl, -⟩ := List.cons.inj same
  rw [spell_cons, List.append_assoc, List.append_assoc]
  exact head?_of_begins (sound _ (List.mem_cons_self ..)).token begins mark _

theorem readPropertyValue_assigned {ps : List Piece} {after behind : List Char}
    {value : PropertyValue} (skipped : skip after = .ok behind) (plus : behind.head? ≠ some '+')
    (sound : ∀ p ∈ ps, p.Sound accepted) (assigned : Assigned (tokens ps) value) :
    ∃ rest, readPropertyValue (spell ps ++ after) = .ok (value, rest) ∧ skip rest = .ok behind := by
  cases ps with
  | nil => exact absurd assigned Assigned.ne_nil
  | cons p ps =>
    obtain ⟨gap, t⟩ := p
    obtain ⟨begins, bare⟩ := skip_first sound after
    rw [readPropertyValue, begins]
    cases assigned with
    | text chain =>
      obtain ⟨-, -, -, stops⟩ := skip_skipped skipped
      refine ⟨behind, ?_, stops⟩
      simp only [bind, Except.bind, if_neg (head?_chain bare chain (show '[' ∈ marks by decide) after),
        readValue_chain skipped plus bare chain]
      rfl
    | list enclosed =>
      obtain ⟨inner, same, -⟩ := id enclosed
      obtain rfl := (List.cons.inj same).1
      have list : (spell (⟨[], .mark '['⟩ :: ps) ++ after).head? = some '[' := by
        simp [spell_cons, Token.text]
      refine ⟨after, ?_, skipped⟩
      simp only [bind, Except.bind, if_pos list, readList_enclosed bare enclosed]
      rfl

theorem readName_name {t : Token} {name rest : List Char} (sound : t.Sound accepted)
    (own : Name t name) (ends : ∀ c ∈ rest.head?, isWordPart c = false) :
    readName (t.text ++ rest) = .ok (name, rest) := by
  cases own with
  | @word text =>
    obtain ⟨c, cs, rfl, start, part⟩ := sound
    have all : ∀ c ∈ cs, isWordPart c = true := List.all_eq_true.1 part
    have plain : ¬(c = '\x27' ∨ c = '"') := by
      rintro (rfl | rfl) <;> exact absurd start (by decide)
    have none : rest.takeWhile isWordPart = [] ∧ rest.dropWhile isWordPart = rest := by
      cases rest with
      | nil => exact ⟨rfl, rfl⟩
      | cons d rest =>
        have other : ¬isWordPart d = true := by simp [ends d rfl]
        exact ⟨List.takeWhile_cons_of_neg other, List.dropWhile_cons_of_neg other⟩
    have before : (cs ++ rest).takeWhile isWordPart = cs := by
      rw [List.takeWhile_append_of_pos all, none.1, List.append_nil]
    have behind : (cs ++ rest).dropWhile isWordPart = rest := by
      rw [List.dropWhile_append_of_pos all, none.2]
    rw [Token.text, List.cons_append, readName, if_neg plain, if_pos start, before, behind]
  | @literal quote body value plain =>
    have quoted : quote = '\x27' ∨ quote = '"' := by
      rcases isQuote_cases sound.1 with rfl | rfl | rfl
      · exact .inl rfl
      · exact .inr rfl
      · exact absurd rfl plain
    rw [Token.text, List.cons_append, List.append_assoc, List.singleton_append, readName,
      if_pos quoted]
    exact readBody_body sound.1 sound.2 _ _

theorem apart_of_gap {r : Rules} {gap : List Char} (h : Gap r gap) {part : Char → Bool}
    (white : ∀ c, isWhiteSpace c = true → part c = false) (slash : part '/' = false) {c : Char}
    (mark : part c = false) (rest : List Char) : ∀ d ∈ (gap ++ c :: rest).head?, part d = false := by
  intro d mem
  cases h with
  | nil =>
    obtain rfl : c = d := by simpa using mem
    exact mark
  | @blank e _ blank _ =>
    obtain rfl : e = d := by simpa using mem
    exact white e blank
  | line | block =>
    obtain rfl : '/' = d := by simpa using mem
    exact slash

theorem readsItem_property :
    ReadsItem '}' readProperty fun ts p => Declares ts p ∧ p.isListedKey = false := by
  intro t ps after rest p c sound others declared own ends
  obtain ⟨declared, single⟩ := declared
  generalize same : t :: tokens ps = ts at declared
  obtain ⟨name, assigned⟩ := declared
  obtain ⟨rfl, colon⟩ := List.cons.inj same
  obtain ⟨gap, qs, rfl, rfl⟩ := tokens_eq_cons colon
  obtain ⟨piece, behind⟩ := List.forall_mem_cons.1 others
  have plus : (c :: rest).head? ≠ some '+' := by rcases own with rfl | rfl <;> simp
  have text : spell (⟨gap, .mark ':'⟩ :: qs) ++ after = gap ++ ':' :: (spell qs ++ after) := by
    simp [spell_cons, Token.text]
  obtain ⟨rest', read, level⟩ := readPropertyValue_assigned ends plus behind assigned
  refine ⟨rest', ?_, level⟩
  have apart : ∀ d ∈ (gap ++ ':' :: (spell qs ++ after)).head?, isWordPart d = false :=
    apart_of_gap piece.gap (fun _ white => not_isWordPart (.inl white)) (by decide) (by decide) _
  rw [readProperty, text, readName_name sound name apart]
  simp only [bind, Except.bind, expect_mark piece.gap (show ':' ∈ marks by decide), read, single]
  rfl

/-! ## Keys and values -/

theorem Items.refine {α : Type} {form : List Token → α → Prop} {p : α → Prop} {ts : List Token}
    {as : List α} (h : Items form ts as) (all : ∀ a ∈ as, p a) :
    Items (fun ts a => form ts a ∧ p a) ts as := by
  induction h with
  | nil => exact .nil
  | last own => exact .last ⟨own, all _ (List.mem_singleton_self _)⟩
  | more own _ ih =>
    obtain ⟨first, others⟩ := List.forall_mem_cons.1 all
    exact .more ⟨own, first⟩ (ih others)

theorem readObject_described {ps : List Piece} {after : List Char} {properties : List Property}
    {key : Key} (sound : ∀ p ∈ ps, p.Sound accepted)
    (enclosed : Enclosed '{' '}' Declares (tokens ps) properties)
    (single : ∀ p ∈ properties, p.name = "key".toList → ∃ value, p.value = .text value)
    (described : describedKey properties = .ok key) :
    readObject (spell ps ++ after) = .ok (key, after) := by
  have unlisted (p : Property) (mem : p ∈ properties) : p.isListedKey = false := by
    by_cases named : p.name = "key".toList
    · obtain ⟨value, text⟩ := single p mem named
      simp [Property.isListedKey, text]
    · rw [Property.isListedKey, beq_eq_false_iff_ne.2 named, Bool.false_and]
  obtain ⟨inner, same, items⟩ := enclosed
  obtain ⟨inner', opens, read⟩ := readItems_enclosed length_readProperty after (by decide)
    (by decide) (fun _ _ declared => declared.1.opens) readsItem_property sound
    ⟨inner, same, items.refine unlisted⟩
  rw [readObject, opens]
  simp only [bind, Except.bind, read, described]
  rfl

theorem readKey_denotes {ps : List Piece} {after : List Char} {key : Key} (ends : skip after = .ok [])
    (sound : ∀ p ∈ ps, p.Sound accepted) (denotes : Denotes (tokens ps) key) :
    ∃ rest, readKey (spell ps ++ after) = .ok (key, rest) ∧ skip rest = .ok [] := by
  cases ps with
  | nil => exact absurd denotes Denotes.ne_nil
  | cons p ps =>
    obtain ⟨gap, t⟩ := p
    obtain ⟨begins, bare⟩ := skip_first sound after
    rw [readKey, begins]
    cases denotes with
    | plain chain =>
      refine ⟨[], ?_, rfl⟩
      simp only [bind, Except.bind, if_neg (head?_chain bare chain (show '{' ∈ marks by decide) after),
        readValue_chain ends (by simp) bare chain]
      rfl
    | described enclosed _ single described =>
      obtain ⟨inner, same, -⟩ := id enclosed
      obtain rfl := (List.cons.inj same).1
      have object : (spell (⟨[], .mark '{'⟩ :: ps) ++ after).head? = some '{' := by
        simp [spell_cons, Token.text]
      refine ⟨after, ?_, ends⟩
      simp only [bind, Except.bind, if_pos object]
      exact readObject_described bare enclosed single described

theorem parseValue_of_isValue {text : String} {value : List Char}
    (h : IsValue accepted text.toList value) : parseValue text = .ok (String.ofList value) := by
  obtain ⟨ts, ⟨ps, last, whole, sound, ending, rfl⟩, chain⟩ := h
  have read := readValue_chain (skip_ending ending) (by simp) sound chain
  rw [parseValue, whole, read]
  rfl

theorem parseKey_of_isKey {text : String} {key : Key} (h : IsKey accepted text.toList key) :
    parseKey text = .ok key := by
  obtain ⟨ts, ⟨ps, last, whole, sound, ending, rfl⟩, denotes⟩ := h
  obtain ⟨rest, read, ends⟩ := readKey_denotes (skip_ending ending) sound denotes
  rw [parseKey, whole, read]
  simp only [bind, Except.bind, finish, ends]
  rfl

/-- A text is read as a key or as a value exactly if the accepted grammar derives it, and gives what it
derives. Where no code with a sign stands in the text, this is the documented grammar. -/
theorem read_iff_derived (text : String) :
    (∀ value, parseValue text = .ok value ↔ IsValue accepted text.toList value.toList) ∧
    (∀ key, parseKey text = .ok key ↔ IsKey accepted text.toList key) ∧
    (¬sign <:+: text.toList →
      (∀ value, parseValue text = .ok value ↔ IsValue documented text.toList value.toList) ∧
      ∀ key, parseKey text = .ok key ↔ IsKey documented text.toList key) := by
  have values (value : String) :
      parseValue text = .ok value ↔ IsValue accepted text.toList value.toList :=
    ⟨isValue_of_parseValue, fun h => by
      have read := parseValue_of_isValue h
      rwa [String.ofList_toList] at read⟩
  have keys (key : Key) : parseKey text = .ok key ↔ IsKey accepted text.toList key :=
    ⟨isKey_of_parseKey, parseKey_of_isKey⟩
  refine ⟨values, keys, fun unsigned => ⟨fun value => ?_, fun key => ?_⟩⟩
  · rw [values]
    exact ⟨IsValue.within (accepted_within_documented unsigned),
      IsValue.within (documented_within_accepted _)⟩
  · rw [keys]
    exact ⟨IsKey.within (accepted_within_documented unsigned),
      IsKey.within (documented_within_accepted _)⟩

/-! ## A code with a sign -/

theorem Code.unsigned {digits : List Char} {n : Nat} (code : Code documented digits n) :
    ¬['{', '+'] <+: digits := by
  intro begins
  cases code with
  | four _ number =>
    obtain ⟨more, rfl⟩ := begins
    have brace := isSome_of_hexNumber? number '{' (List.mem_cons_self ..)
    cases brace
  | @braced digits _ nonempty number _ =>
    obtain ⟨d, digits, rfl⟩ := List.exists_cons_of_ne_nil nonempty
    obtain ⟨rfl, -⟩ := List.cons_prefix_cons.1 (List.cons_prefix_cons.1 begins).2
    have plus := isSome_of_hexNumber? number '+' (List.mem_cons_self ..)
    cases plus
  | signed sign => exact sign

theorem Escape.unsigned {behind e out : List Char} (escape : Escape documented behind e out) :
    ¬sign <+: e := by
  intro begins
  cases escape with
  | code code _ => exact code.unsigned (List.cons_prefix_cons.1 begins).2
  | @pair first second _ _ one _ _ _ =>
    have longer : ['{', '+'].length ≤ first.length := by
      cases one with
      | four size _ => simp [size]
      | braced => simp
      | signed sign => exact sign.elim
    exact one.unsigned (List.prefix_of_prefix_length_le (List.cons_prefix_cons.1 begins).2
      (List.prefix_append first _) longer)
  | zero | lineFeed | carriageReturn | carriageReturnLineFeed | letter | other | byte =>
    simp [sign] at begins

theorem not_isKey_signed {cs behind : List Char} {out : List Char} (quote : Char)
    (read : readEscape (sign ++ cs) = some (out, behind)) (short : behind.length ≤ cs.length)
    (quoted : isQuote quote = true) (key : Key) :
    ¬IsKey documented (quote :: '\\' :: (sign ++ cs)) key := by
  rintro ⟨ts, ⟨ps, last, whole, sound, -, rfl⟩, denotes⟩
  cases ps with
  | nil => exact Denotes.ne_nil denotes
  | cons p ps =>
    obtain ⟨gap, t⟩ := p
    have own := sound _ (List.mem_cons_self ..)
    -- The text begins with its first token.
    have begins := skip_piece own (spell ps ++ last)
    have starts : skip (quote :: '\\' :: (sign ++ cs)) = .ok (quote :: '\\' :: (sign ++ cs)) := by
      rcases isQuote_cases quoted with rfl | rfl | rfl <;> rfl
    rw [spell_cons, List.append_assoc, List.append_assoc] at whole
    rw [← whole, starts] at begins
    have text := Except.ok.inj begins
    cases t with
    | word word =>
      obtain ⟨c, cs, same, start, -⟩ := own.token
      rw [same] at text
      obtain rfl := (List.cons.inj text).1
      rcases isQuote_cases quoted with rfl | rfl | rfl <;> cases start
    | mark c =>
      obtain rfl := (List.cons.inj text).1
      have mark : quote ∈ marks := own.token
      rcases isQuote_cases quoted with rfl | rfl | rfl <;> exact absurd mark (by decide)
    | literal quote' body value =>
      obtain ⟨-, inside⟩ : quote = quote' ∧
          '\\' :: (sign ++ cs) = body ++ quote' :: (spell ps ++ last) :=
        List.cons.inj (text.trans (by simp [Token.text]))
      obtain ⟨quoted', whole'⟩ := own.token
      cases whole' with
      | nil => exact isQuote_ne quoted' (List.cons.inj inside).1.symm
      | raw _ backslash => exact backslash (List.cons.inj inside).1.symm
      | @escape e cs' _ _ escape _ =>
        have behind_escape : sign ++ cs = e ++ (cs' ++ quote' :: (spell ps ++ last)) := by
          simpa using (List.cons.inj inside).2
        have again := readEscape_escape
          ((escape.within (documented_within_accepted _)).extend quoted' (spell ps ++ last))
        rw [← behind_escape, read] at again
        have size := congrArg List.length behind_escape
        rw [← (Prod.mk.inj (Option.some.inj again)).2, List.length_append, List.length_append] at size
        exact escape.unsigned (List.prefix_of_prefix_length_le (List.prefix_append sign cs)
          (behind_escape ▸ List.prefix_append e _) (by omega))

theorem isValue_literal {r : Rules} {quote : Char} {body value last : List Char}
    (quoted : isQuote quote = true) (whole : Body r quote body value) (ending : Ending r last) :
    IsValue r (quote :: (body ++ quote :: last)) value := by
  refine ⟨_, ⟨[⟨[], .literal quote body value⟩], last, ?_, ?_, ending, rfl⟩, .one⟩
  · simp [spell, Token.text]
  · exact List.forall_mem_singleton.2 ⟨.nil, quoted, whole⟩

theorem IsValue.isKey {r : Rules} {text value : List Char} (h : IsValue r text value) :
    IsKey r text (.plain (String.ofList value)) := by
  obtain ⟨ts, writes, chain⟩ := h
  exact ⟨ts, writes, .plain chain⟩

/-- A plus in front of the digits is taken, as in no text of the documented grammar. -/
theorem signed_code_accepted :
    parseKey "'\\u\x7b+41\x7d'" = .ok (.plain "A") ∧
      ∀ key, ¬IsKey documented "'\\u\x7b+41\x7d'".toList key := by
  have code : Code accepted ('{' :: '+' :: ("41".toList ++ ['}'])) 65 :=
    .signed trivial (by decide) (by decide) (by decide)
  have body : Body accepted '\x27' "\\u\x7b+41\x7d".toList ['A'] :=
    .escape (.code code (by decide)) .nil
  have read : readEscape (sign ++ "41\x7d'".toList) = some (['A'], ['\x27']) := by decide
  exact ⟨parseKey_of_isKey (isValue_literal rfl body (.gap .nil)).isKey,
    not_isKey_signed '\x27' read (by decide) rfl⟩

end BundlePrep.Message.Grammar
