import BundlePrep.Proofs.Message.Readback
import BundlePrep.Proofs.Script.Pieces

/-!
# What is put is one token

What is put in quotes is read as one text, whatever stands behind it. A name or a number is read as
one token where the text behind does not go on it.
-/

set_option autoImplicit false

namespace BundlePrep.Script

open BundlePrep.Json BundlePrep.Message BundlePrep.Text

structure IsQuoted (content : List Char) : Prop where
  head : content.head? = some '"'
  reads : ∀ rest, Lexical.token.rest? (content ++ rest) = some rest

theorem scanQuoted_encode (acc text rest : List Char) :
    scanQuoted '"' acc (encode text ++ '"' :: rest) = some (acc.reverse ++ encode text, rest) := by
  induction text generalizing acc with
  | nil =>
    rw [encode_nil, List.nil_append, scanQuoted_plain (by decide), if_pos (by decide),
      List.append_nil]
  | cons c text ih =>
    rw [encode_cons, List.append_assoc]
    rcases encodeChar_cases c with ⟨same, quote, backslash, lineFeed, carriageReturn⟩ |
      ⟨d, same, letters, -⟩ | ⟨same, control⟩
    · rw [same, List.singleton_append, scanQuoted_plain backslash, if_neg (by simpa using quote),
        if_neg (by simp [lineFeed, carriageReturn, backslash]), ih]
      simp
    · have carriageReturn : d ≠ '\r' := fun same => absurd (same ▸ letters) (by decide)
      rw [same, List.cons_append, List.cons_append, List.nil_append, scanQuoted, ih]
      · simp
      · intro cs same
        exact absurd same carriageReturn
    · have plain {c : Char} (h : IsPlain c) (acc cs : List Char) :
          scanQuoted '"' acc (c :: cs) = scanQuoted '"' (c :: acc) cs := by
        obtain ⟨quote, backslash, lineFeed, carriageReturn⟩ := h
        rw [scanQuoted_plain backslash, if_neg (by simpa using quote),
          if_neg (by simp [lineFeed, carriageReturn, backslash])]
      have zero : IsPlain '0' := ⟨by decide, by decide, by decide, by decide⟩
      have high := (hexDigit_isPlain (n := c.toNat / 16) (by omega)).1
      have low := (hexDigit_isPlain (n := c.toNat % 16) (by omega)).1
      rw [same]
      simp only [List.cons_append, List.nil_append]
      rw [scanQuoted, plain zero, plain zero, plain high, plain low, ih]
      · simp
      · intros
        contradiction

theorem decodeQuoted_encode (text : List Char) {fuel : Nat} (h : (encode text).length ≤ fuel) :
    ∃ codes, decodeQuoted fuel (encode text) = some codes := by
  induction text generalizing fuel with
  | nil => exact ⟨_, by rw [encode_nil, decodeQuoted]⟩
  | cons c text ih =>
    rw [encode_cons] at h ⊢
    rcases encodeChar_cases c with ⟨same, quote, backslash, lineFeed, carriageReturn⟩ |
      ⟨d, same, letters, -⟩ | ⟨same, control⟩
    · rw [same] at h ⊢
      cases fuel with
      | zero => simp at h
      | succ fuel =>
        obtain ⟨codes, more⟩ := ih (show (encode text).length ≤ fuel by simpa using h)
        rw [List.singleton_append, decodeQuoted, more]
        · exact ⟨_, rfl⟩
        · intros
          exact backslash ‹_›
    · rw [same] at h ⊢
      cases fuel with
      | zero => simp at h
      | succ fuel =>
        have short : (encode text).length ≤ fuel := by
          simp only [List.length_append, List.length_cons, List.length_nil] at h
          omega
        obtain ⟨codes, more⟩ := ih short
        simp only [List.mem_cons, List.not_mem_nil, or_false] at letters
        rcases letters with rfl | rfl | rfl | rfl | rfl | rfl | rfl
        all_goals
          simp only [List.cons_append, List.nil_append]
          rw [decodeQuoted]
          · simp [more, isLineEnd, isOctal]
          all_goals
            intros
            contradiction
    · rw [same] at h ⊢
      cases fuel with
      | zero => simp at h
      | succ fuel =>
        have short : (encode text).length ≤ fuel := by
          simp only [List.length_append, List.length_cons, List.length_nil] at h
          omega
        obtain ⟨codes, more⟩ := ih short
        have high := hexValue?_hexDigit (n := c.toNat / 16) (by omega)
        have low := hexValue?_hexDigit (n := c.toNat % 16) (by omega)
        have number : ∃ code,
            hexNumber? ['0', '0', hexDigit (c.toNat / 16), hexDigit (c.toNat % 16)] = some code := by
          have zero : hexValue? '0' = some 0 := by decide
          simp [hexNumber?, zero, high, low]
        obtain ⟨code, number⟩ := number
        simp only [List.cons_append, List.nil_append]
        rw [decodeQuoted]
        · simp [number, more]
        · intros
          contradiction

theorem isQuoted_quoteChars (text : List Char) : IsQuoted (quoteChars text) := by
  refine ⟨rfl, fun rest => ?_⟩
  obtain ⟨codes, decoded⟩ := decodeQuoted_encode text (Nat.le_refl _)
  have whole : quoteChars text ++ rest = '"' :: (encode text ++ '"' :: rest) := by simp [quoteChars]
  have read : lexeme? ('"' :: (encode text ++ '"' :: rest)) 0 =
      textLexeme '"' (encode text ++ '"' :: rest) 0 := rfl
  rw [whole, Lexical.rest?, read]
  simp [textLexeme, scanQuoted_encode, decoded]

/-! ## Texts without escapes -/

theorem scanQuoted_of_plain {quote : Char} {w : List Char}
    (h : ∀ c ∈ w, c ≠ '\\' ∧ c ≠ quote ∧ c ≠ '\n' ∧ c ≠ '\r') (hq : quote ≠ '\\')
    (acc rest : List Char) :
    scanQuoted quote acc (w ++ quote :: rest) = some (acc.reverse ++ w, rest) := by
  induction w generalizing acc with
  | nil => rw [List.nil_append, scanQuoted_plain hq, if_pos (by simp), List.append_nil]
  | cons c w ih =>
    obtain ⟨backslash, other, lineFeed, carriageReturn⟩ := h c (List.mem_cons_self ..)
    rw [List.cons_append, scanQuoted_plain backslash, if_neg (by simpa using other),
      if_neg (by simp [backslash, lineFeed, carriageReturn]),
      ih fun d mem => h d (List.mem_cons_of_mem c mem)]
    simp

theorem decodeQuoted_of_plain {w : List Char} (h : ∀ c ∈ w, c ≠ '\\') {fuel : Nat}
    (enough : w.length ≤ fuel) : decodeQuoted fuel w = some (w.map Char.toNat, false) := by
  induction w generalizing fuel with
  | nil => rw [decodeQuoted, List.map_nil]
  | cons c w ih =>
    cases fuel with
    | zero => simp at enough
    | succ fuel =>
      have more := ih (fun d mem => h d (List.mem_cons_of_mem c mem))
        (show w.length ≤ fuel by simpa using enough)
      rw [decodeQuoted, more]
      · rfl
      · intros
        exact h c (List.mem_cons_self ..) ‹_›

theorem joinSurrogates_of_plain (w : List Char) :
    joinSurrogates (w.map Char.toNat) = some w := by
  induction w with
  | nil => rfl
  | cons c w ih => rw [List.map_cons, joinSurrogates_char, ih, Option.map_some]

theorem rest?_singleQuoted {w : List Char}
    (h : ∀ c ∈ w, c ≠ '\\' ∧ c ≠ '\x27' ∧ c ≠ '\n' ∧ c ≠ '\r') (rest : List Char) :
    Lexical.token.rest? ('\x27' :: (w ++ '\x27' :: rest)) = some rest := by
  have decoded := decodeQuoted_of_plain (fun c mem => (h c mem).1) (Nat.le_refl w.length)
  have read : lexeme? ('\x27' :: (w ++ '\x27' :: rest)) 0 =
      textLexeme '\x27' (w ++ '\x27' :: rest) 0 := rfl
  rw [Lexical.rest?, read]
  simp [textLexeme, scanQuoted_of_plain h (by decide), decoded]

/-! ## Names and numbers -/

theorem not_isOpening {c : Char} (h : (c.isDigit || isNameStart c) = true) :
    isOpening c = false := by
  by_contra opens
  simp only [isOpening, Bool.not_eq_false, Bool.or_eq_true, beq_iff_eq] at opens
  rcases opens with (((rfl | rfl) | rfl) | rfl) | rfl
  all_goals exact absurd h (by decide)

theorem of_isDigit {p : Char → Prop} (all : ∀ c ∈ "0123456789".toList, p c) {c : Char}
    (h : c.isDigit = true) : p c := by
  simp only [Char.isDigit, Bool.and_eq_true, decide_eq_true_eq] at h
  have low : 48 ≤ c.toNat := h.1
  have high : c.toNat ≤ 57 := h.2
  have digits : ∀ n : Nat, 48 ≤ n → n ≤ 57 → Char.ofNat n ∈ "0123456789".toList := by decide
  exact all c (Char.ofNat_toNat c ▸ digits c.toNat low high)

theorem isDigit_of_isNameStart {c : Char} (letter : isNameStart c = true) : c.isDigit = false := by
  by_contra digit
  have own := of_isDigit (p := fun c => isNameStart c = false) (by decide)
    (Bool.not_eq_false _ ▸ digit)
  rw [letter] at own
  cases own

theorem lexeme?_start {c : Char} (letter : isNameStart c = true) (cs : List Char) (pos : Nat) :
    lexeme? (c :: cs) pos = wordLexeme .word (c :: cs) pos := by
  rw [lexeme?_plain (not_isOpening (by rw [letter, Bool.or_true])), if_pos letter,
    if_neg (by simp [isDigit_of_isNameStart letter])]

theorem lexeme?_digit {d : Char} (digit : d.isDigit = true) (cs : List Char) (pos : Nat) :
    lexeme? (d :: cs) pos = numberLexeme (d :: cs) pos := by
  rw [lexeme?_plain (not_isOpening (by rw [digit, Bool.true_or])), if_pos digit]

theorem rest?_name {c : Char} {w rest : List Char} (letter : isNameStart c = true)
    (parts : ∀ d ∈ w, isNamePart d = true ∧ d ≠ '\\') :
    Lexical.token.rest? (c :: (w ++ rest)) = some rest ↔ Breaks rest := by
  rw [Lexical.rest?, lexeme?_start letter]
  constructor
  · intro read
    obtain ⟨lexeme, found, rfl⟩ := Option.map_eq_some_iff.1 read
    exact (wordLexeme_eq_some found).1
  · intro breaks
    obtain ⟨word, found, nonempty, rfl⟩ :=
      scanWord_parts [c] (by simp) parts breaks (0 + c.utf8Size)
    rw [wordLexeme, scanWord_letter letter, found]
    simp [nonempty]

theorem digitRun_digits {ds rest : List Char} (digits : ∀ d ∈ ds, d.isDigit = true)
    (stops : Stops Char.isDigit rest) (after : Bool) (count : Nat) :
    digitRun Char.isDigit after (ds ++ rest) count = some (count + ds.length, rest) := by
  induction ds generalizing after count with
  | nil => exact digitRun_here stops after count
  | cons d ds ih =>
    have digit := digits d (List.mem_cons_self ..)
    rw [List.cons_append, digitRun, if_pos digit, ih fun e mem => digits e (List.mem_cons_of_mem d mem)]
    · rw [List.length_cons, Nat.add_assoc, Nat.add_comm 1]
    · rintro rfl
      cases digit

theorem digitChar_ne_zero {n : Nat} (positive : 0 < n) (small : n < 10) : n.digitChar ≠ '0' := by
  have all : ∀ n < 10, 0 < n → n.digitChar ≠ '0' := by decide
  exact all n small positive

theorem head_toDigits {n : Nat} (positive : 0 < n) : (Nat.toDigits 10 n).head? ≠ some '0' := by
  induction n using Nat.strongRecOn with
  | ind n ih =>
    rw [Nat.toDigits_eq_if (by decide)]
    split
    next small => simpa using digitChar_ne_zero positive small
    next large =>
      rw [List.head?_append_of_ne_nil _ Nat.toDigits_ne_nil]
      exact ih (n / 10) (by omega) (by omega)

theorem isDigit_of_mem_toDigits {n : Nat} : ∀ d ∈ Nat.toDigits 10 n, d.isDigit = true :=
  fun _ mem => Nat.isDigit_of_mem_toDigits (n := n) (by decide) (Nat.le_refl 10) mem

theorem toDigits_eq_cons (n : Nat) : ∃ d ds, Nat.toDigits 10 n = d :: ds ∧ d.isDigit = true := by
  obtain ⟨d, ds, digits⟩ := List.exists_cons_of_ne_nil (Nat.toDigits_ne_nil (n := n) (b := 10))
  exact ⟨d, ds, digits, isDigit_of_mem_toDigits (n := n) d (by simp [digits])⟩

theorem scanNumeral_toDigits (n : Nat) {rest : List Char} (ends : endsNumeral rest = true) :
    scanNumeral (Nat.toDigits 10 n ++ rest) =
      scanFraction (Nat.toDigits 10 n).length true false rest := by
  rcases Nat.eq_zero_or_pos n with rfl | positive
  · rw [Nat.toDigits_zero]
    exact scanNumeral_zero (ends_afterZero ends)
  · have stops : Stops Char.isDigit rest := endsNumeral_stops ends fun _ digit => .inl digit
    have nonempty : Nat.toDigits 10 n ≠ [] := Nat.toDigits_ne_nil
    rw [scanNumeral_plain, digitRun_digits isDigit_of_mem_toDigits stops, Option.bind_some,
      Nat.zero_add]
    · dsimp only
      rw [decide_eq_true (List.length_pos_iff.2 nonempty)]
    · rw [List.head?_append_of_ne_nil _ nonempty]
      exact head_toDigits positive

theorem scanFraction_dot {length : Nat} {big octal : Bool} {cs : List Char} {numeral : Numeral}
    (h : scanFraction length big octal ('.' :: cs) = some numeral) :
    ∃ w, cs = w ++ numeral.rest := by
  rw [scanFraction] at h
  simp only [Option.bind_eq_bind, Option.bind_eq_some_iff] at h
  obtain ⟨⟨count, behind⟩, run, ⟨total, rest⟩, exponent, same⟩ := h
  obtain ⟨-, w, -, rfl, -⟩ := digitRun_eq_some decimal run
  obtain ⟨w', -, rfl, -⟩ := scanExponent_eq_some exponent
  obtain rfl := Option.some.inj same
  exact ⟨w ++ w', by simp⟩

theorem rest?_digits (n : Nat) (rest : List Char) :
    Lexical.token.rest? (Nat.toDigits 10 n ++ rest) = some rest ↔
      endsNumeral rest = true ∧ rest.head? ≠ some '.' := by
  obtain ⟨d, ds, digits, digit⟩ := toDigits_eq_cons n
  have unfolded : Lexical.token.rest? (Nat.toDigits 10 n ++ rest) =
      (numberLexeme (Nat.toDigits 10 n ++ rest) 0).map (·.rest) := by
    rw [digits, List.cons_append, Lexical.rest?, lexeme?_digit digit]
  rw [unfolded]
  constructor
  · intro read
    obtain ⟨lexeme, found, rfl⟩ := Option.map_eq_some_iff.1 read
    have ends := (numberLexeme_eq_some found).1
    refine ⟨ends, fun dot => ?_⟩
    obtain ⟨cs, behind⟩ := List.head?_eq_some_iff.1 dot
    simp only [numberLexeme, Option.bind_eq_bind, Option.bind_eq_some_iff] at found
    obtain ⟨numeral, scanned, same⟩ := found
    rw [scanNumeral_toDigits n ends, behind] at scanned
    obtain ⟨w, shorter⟩ := scanFraction_dot scanned
    split at same
    · obtain rfl := Option.some.inj same
      have length := congrArg List.length behind
      rw [shorter] at length
      simp only [List.length_cons, List.length_append] at length
      omega
    · cases same
  · rintro ⟨ends, dot⟩
    rw [numberLexeme, scanNumeral_toDigits n ends, scanFraction_here ends dot]
    simp [ends]

end BundlePrep.Script
