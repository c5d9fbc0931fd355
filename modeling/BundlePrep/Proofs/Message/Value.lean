import BundlePrep.Proofs.Message.Fallback
import BundlePrep.Proofs.Script.Pieces
import Mathlib.Algebra.Group.Nat.Defs

/-!
# Two readers of a quoted text

A quoted text is read as a token of a script, and as the argument of a call. Both readers give it the
same value, unless a digit stands behind a backslash: a script takes it for an old octal escape, and
an argument has no such escape.
-/

set_option autoImplicit false

namespace BundlePrep.Message

open BundlePrep.Text
open BundlePrep.Script (NoDigit decodeQuoted isLineEnd joinSurrogates joinSurrogates_char lexeme?
  scanQuoted textLexeme)

/-! ## Escapes of a body -/

/-- The characters behind a backslash, each with the text behind it. -/
def escapes : List Char → List (Char × List Char)
  | '\\' :: c :: cs => (c, cs) :: escapes cs
  | _ :: cs => escapes cs
  | [] => []

/-- A line ends behind a backslash. -/
def Continued (body : List Char) : Prop := ∃ e ∈ escapes body, isLineEnd e.1 = true

/-- A digit behind a backslash, other than a zero alone. -/
def Octal (c : Char) (cs : List Char) : Prop := c.isDigit = true ∧ (c = '0' → ¬NoDigit cs)

instance (c : Char) (cs : List Char) : Decidable (Octal c cs) :=
  inferInstanceAs (Decidable (c.isDigit = true ∧ (c = '0' → ¬NoDigit cs)))

/-- A body with an old octal escape. -/
def Digited (body : List Char) : Prop := ∃ e ∈ escapes body, Octal e.1 e.2

instance (body : List Char) : Decidable (Continued body) :=
  inferInstanceAs (Decidable (∃ e ∈ escapes body, isLineEnd e.1 = true))

instance (body : List Char) : Decidable (Digited body) :=
  inferInstanceAs (Decidable (∃ e ∈ escapes body, Octal e.1 e.2))

inductive OneLine (quote : Char) : List Char → Prop where
  | nil : OneLine quote []
  | escape {c : Char} {cs : List Char} : isLineEnd c = false → OneLine quote cs →
      OneLine quote ('\\' :: c :: cs)
  | plain {c : Char} {cs : List Char} : c ≠ quote → c ≠ '\\' → c ≠ '\n' → c ≠ '\r' →
      OneLine quote cs → OneLine quote (c :: cs)

theorem escapes_plain {c : Char} (h : c ≠ '\\') (cs : List Char) : escapes (c :: cs) = escapes cs := by
  rw [escapes]
  rintro d cs' rfl
  exact absurd rfl h

theorem escapes_behind {e : List Char} (h : '\\' ∉ e) (cs : List Char) :
    escapes (e ++ cs) = escapes cs := by
  induction e with
  | nil => rfl
  | cons c e ih =>
    rw [List.mem_cons, not_or] at h
    rw [List.cons_append, escapes_plain (Ne.symm h.1), ih h.2]

theorem digited_escape {c : Char} {cs : List Char} : Digited ('\\' :: c :: cs) ↔
    Octal c cs ∨ Digited cs := by
  simp [Digited, escapes]

theorem digited_behind {e : List Char} (h : '\\' ∉ e) {cs : List Char} :
    Digited (e ++ cs) ↔ Digited cs := by
  rw [Digited, escapes_behind h, Digited]

theorem OneLine.behind {quote : Char} {e cs : List Char} (h : '\\' ∉ e)
    (one : OneLine quote (e ++ cs)) : OneLine quote cs := by
  induction e with
  | nil => exact one
  | cons c e ih =>
    rw [List.mem_cons, not_or] at h
    rw [List.cons_append] at one
    generalize e ++ cs = tail at one ih
    cases one with
    | escape => exact absurd rfl h.1
    | plain _ _ _ _ one => exact ih h.2 one

theorem oneLine_of_scanQuoted {quote : Char} {acc cs written rest : List Char}
    (h : scanQuoted quote acc cs = some (written, rest)) :
    ∃ w, cs = w ++ quote :: rest ∧ written = acc.reverse ++ w ∧
      (¬Continued w → OneLine quote w) := by
  fun_induction scanQuoted quote acc cs with
  | case1 acc cs ih =>
    obtain ⟨w, rfl, rfl, -⟩ := ih h
    refine ⟨'\\' :: '\r' :: '\n' :: w, rfl, by simp, fun single => absurd ?_ single⟩
    exact ⟨('\r', '\n' :: w), by simp [escapes], rfl⟩
  | case2 acc c cs pair ih =>
    obtain ⟨w, rfl, rfl, one⟩ := ih h
    refine ⟨'\\' :: c :: w, rfl, by simp, fun single => ?_⟩
    rw [Continued, escapes] at single
    have inline : isLineEnd c = false := by
      by_contra ends
      exact single ⟨(c, w), by simp, by simpa using ends⟩
    exact .escape inline (one fun more =>
      single (more.imp fun _ ends => ⟨List.mem_cons_of_mem _ ends.1, ends.2⟩))
  | case3 acc c cs _ _ closing =>
    obtain ⟨rfl, rfl⟩ := Prod.mk.inj (Option.some.inj h)
    obtain rfl : c = quote := by simpa using closing
    exact ⟨[], rfl, by simp, fun _ => .nil⟩
  | case4 => cases h
  | case5 acc c cs _ _ other plain ih =>
    obtain ⟨w, rfl, rfl, one⟩ := ih h
    simp only [Bool.or_eq_true, beq_iff_eq, not_or] at plain other
    obtain ⟨⟨lineFeed, carriageReturn⟩, backslash⟩ := plain
    refine ⟨c :: w, rfl, by simp, fun single => ?_⟩
    rw [Continued, escapes_plain backslash] at single
    exact .plain other backslash lineFeed carriageReturn (one single)
  | case6 => cases h

/-! ## Hexadecimal digits -/

theorem bracedNumber?_eq_some {cs rest : List Char} {value code : Nat} {seen : Bool}
    (h : Script.bracedNumber? cs value seen = some (code, rest)) (low : value ≤ 0x10ffff) :
    code ≤ 0x10ffff ∧ ∃ digits, cs = digits ++ '}' :: rest ∧ (seen = false → digits ≠ []) ∧
      digits.foldlM (fun n c => (hexValue? c).map (16 * n + ·)) value = some code ∧
      ∀ c ∈ digits, c ≠ '}' ∧ c ≠ '+' := by
  fun_induction Script.bracedNumber? cs value seen with
  | case1 cs value =>
    obtain ⟨rfl, rfl⟩ := Prod.mk.inj (Option.some.inj h)
    exact ⟨low, [], rfl, by simp, rfl, by simp⟩
  | case2 => cases h
  | case3 c cs value seen brace ih =>
    cases digit : hexValue? c with
    | none => simp [digit] at h
    | some d =>
      simp only [digit, Option.bind_eq_bind, Option.bind_some] at h
      split at h
      next below =>
        obtain ⟨bound, digits, rfl, -, number, plain⟩ := ih d h below
        refine ⟨bound, c :: digits, rfl, by simp, by simpa [digit] using number, ?_⟩
        intro x mem
        rcases List.mem_cons.1 mem with rfl | mem
        · refine ⟨fun same => brace same, ?_⟩
          rintro rfl
          cases digit
        · exact plain x mem
      · cases h
  | case4 => cases h

theorem hexValue?_lt {c : Char} {d : Nat} (h : hexValue? c = some d) : d < 16 := by
  have letters : '9'.toNat = 57 ∧ 'f'.toNat = 102 ∧ 'F'.toNat = 70 := by decide
  unfold hexValue? at h
  split_ifs at h with decimal small large <;>
    simp only [Option.some.injEq, Char.le_def, UInt32.le_iff_toNat_le, Char.toNat_val] at * <;> omega

theorem hexNumber?_lt {digits : List Char} {code : Nat} (h : hexNumber? digits = some code) :
    code < 16 ^ digits.length := by
  suffices all : ∀ start, digits.foldlM (fun n c => (hexValue? c).map (16 * n + ·)) start =
      some code → code < (start + 1) * 16 ^ digits.length by
    simpa using all 0 h
  clear h
  induction digits with
  | nil => simp
  | cons c digits ih =>
    intro start h
    cases value : hexValue? c with
    | none => simp [value] at h
    | some d =>
      simp only [List.foldlM_cons, value, Option.map_some, Option.bind_eq_bind,
        Option.bind_some] at h
      have first := ih _ h
      have digit := hexValue?_lt value
      calc code < (16 * start + d + 1) * 16 ^ digits.length := first
        _ ≤ ((start + 1) * 16) * 16 ^ digits.length := Nat.mul_le_mul_right _ (by omega)
        _ = (start + 1) * 16 ^ (c :: digits).length := by
          rw [List.length_cons, Nat.pow_succ', Nat.mul_assoc]

/-! ## One escape -/

theorem not_octal {c : Char} (h : c.isDigit = false) (cs : List Char) : ¬Octal c cs :=
  fun octal => absurd (h.symm.trans octal.1) (by decide)

structure Leaves (fuel : Nat) (cs rest : List Char) (codes more : List Nat) (code : Nat) : Prop where
  digits : ∃ e, cs = e ++ rest ∧ '\\' ∉ e
  codes_eq : codes = code :: more
  decoded : ∃ octal, decodeQuoted fuel rest = some (more, octal)

theorem leaves_of_map {fuel : Nat} {rest e : List Char} {codes : List Nat} {code : Nat}
    {octal old : Bool} (h : (decodeQuoted fuel rest).map
      (fun r => ([code] ++ r.1, old || r.2)) = some (codes, octal)) (digits : '\\' ∉ e) :
    ∃ more, Leaves fuel (e ++ rest) rest codes more code := by
  obtain ⟨⟨more, octal'⟩, decoded, same⟩ := Option.map_eq_some_iff.1 h
  exact ⟨more, ⟨e, rfl, digits⟩, (Prod.mk.inj same).1.symm, octal', decoded⟩

def Letter (fuel : Nat) (c : Char) (cs : List Char) (codes : List Nat) : Prop :=
  ∃ rest more d, Leaves fuel cs rest codes more d.toNat ∧
    ∀ tail, NoDigit tail → readEscape (c :: (cs ++ tail)) = some ([d], rest ++ tail)

def Coded (fuel : Nat) (c : Char) (cs : List Char) (codes : List Nat) : Prop :=
  c = 'u' ∧ ∃ rest more code, Leaves fuel cs rest codes more code ∧ code ≤ 0x10ffff ∧
    ∀ tail, readCode (cs ++ tail) = some (code, rest ++ tail)

theorem letter_of_map {fuel : Nat} {c : Char} {cs : List Char} {codes : List Nat} {octal : Bool}
    (d : Char) (h : (decodeQuoted fuel cs).map
      (fun r => ([d.toNat] ++ r.1, false || r.2)) = some (codes, octal))
    (reads : ∀ tail, NoDigit tail → readEscape (c :: (cs ++ tail)) = some ([d], cs ++ tail)) :
    Letter fuel c cs codes := by
  obtain ⟨more, leaves⟩ := leaves_of_map (e := []) h (by simp)
  exact ⟨cs, more, d, leaves, reads⟩

theorem readHex_append {digits : List Char} {code : Nat} (h : hexNumber? digits = some code)
    (rest : List Char) : readHex digits.length (digits ++ rest) = some (code, rest) := by
  simp [readHex, h]

theorem readBraced_written (written : List Char) {code : Nat}
    (number : hexNumber? (bracedDigits written) = some code) (nonempty : bracedDigits written ≠ [])
    (plain : ∀ c ∈ written, c ≠ '}') (low : code ≤ 0x10ffff) (rest : List Char) :
    readBraced (written ++ '}' :: rest) = some (code, rest) := by
  have before : (written ++ '}' :: rest).takeWhile (· ≠ '}') = written := by
    rw [List.takeWhile_append_of_pos (by simpa using plain)]
    simp
  have behind : (written ++ '}' :: rest).dropWhile (· ≠ '}') = '}' :: rest := by
    rw [List.dropWhile_append_of_pos (by simpa using plain)]
    simp
  simp only [readBraced, before, behind, number]
  rw [if_neg]
  simp [nonempty, low]

theorem readBraced_append {digits : List Char} {code : Nat} (h : hexNumber? digits = some code)
    (nonempty : digits ≠ []) (plain : ∀ c ∈ digits, c ≠ '}' ∧ c ≠ '+') (low : code ≤ 0x10ffff)
    (rest : List Char) : readBraced (digits ++ '}' :: rest) = some (code, rest) := by
  have unsigned : bracedDigits digits = digits := by
    unfold bracedDigits
    split
    · exact absurd rfl (plain '+' (by simp)).2
    · rfl
  exact readBraced_written digits (by rwa [unsigned]) (by rwa [unsigned])
    (fun c mem => (plain c mem).1) low rest

theorem noDigit_append {cs tail : List Char} (h : NoDigit tail) :
    NoDigit (cs ++ tail) ↔ NoDigit cs := by
  cases cs with
  | nil => exact iff_of_true h (by simp [NoDigit])
  | cons c cs => simp [NoDigit]

theorem readEscape_zero (cs : List Char) :
    readEscape ('0' :: cs) = if NoDigit cs then some (['\x00'], cs) else none := by
  cases cs with
  | nil => rfl
  | cons d cs =>
    simp only [readEscape, NoDigit, List.head?_cons, Option.mem_def, Option.some.injEq, forall_eq']
    cases d.isDigit <;> rfl

theorem readEscape_other {c : Char} (lineFeed : c ≠ '\n') (carriageReturn : c ≠ '\r')
    (other : c ≠ 'n' ∧ c ≠ 't' ∧ c ≠ 'r' ∧ c ≠ 'b' ∧ c ≠ 'f' ∧ c ≠ 'v' ∧ c ≠ 'x' ∧ c ≠ 'u')
    (nonzero : c ≠ '0') (cs : List Char) :
    readEscape (c :: cs) = if c.isDigit then none else some ([c], cs) := by
  obtain ⟨n, t, r, b, f, v, x, u⟩ := other
  rw [readEscape]
  all_goals first
    | assumption
    | exact fun _ same _ => carriageReturn same
    | exact fun _ _ same _ => nonzero same
    | exact fun same _ => nonzero same

theorem isOctal_digit {c : Char} (h : c.isDigit = false) : Script.isOctal c = false := by
  simp only [Char.isDigit, Script.isOctal, Char.le_def] at *
  grind

theorem decodeQuoted_escape {fuel : Nat} {c : Char} {cs : List Char} {codes : List Nat}
    {octal : Bool} (h : decodeQuoted (fuel + 1) ('\\' :: c :: cs) = some (codes, octal))
    (inline : isLineEnd c = false) :
    (¬Octal c cs ∧
      (Letter fuel c cs codes ∨ Coded fuel c cs codes)) ∨
    (Octal c cs ∧
      ∀ tail, readEscape (c :: (cs ++ tail)) = none) := by
  unfold decodeQuoted at h
  dsimp only at h
  split at h
  case h_1 same => cases same
  case h_2 same _ => cases same
  case h_4 other _ same =>
    obtain ⟨rfl, rfl⟩ := List.cons.inj same
    exact absurd rfl (other c cs rfl)
  case h_3 fuel' c' cs' size same =>
    obtain ⟨rfl, rfl⟩ := List.cons.inj (List.cons.inj same).2
    obtain rfl := Nat.succ.inj size
    split at h
    case h_1 => cases inline
    case h_2 => exact .inl ⟨not_octal rfl _, .inl (letter_of_map '\n' h fun _ _ => rfl)⟩
    case h_3 => exact .inl ⟨not_octal rfl _, .inl (letter_of_map '\t' h fun _ _ => rfl)⟩
    case h_4 => exact .inl ⟨not_octal rfl _, .inl (letter_of_map '\r' h fun _ _ => rfl)⟩
    case h_5 => exact .inl ⟨not_octal rfl _, .inl (letter_of_map '\x08' h fun _ _ => rfl)⟩
    case h_6 => exact .inl ⟨not_octal rfl _, .inl (letter_of_map '\x0c' h fun _ _ => rfl)⟩
    case h_7 => exact .inl ⟨not_octal rfl _, .inl (letter_of_map '\x0b' h fun _ _ => rfl)⟩
    case h_8 p q cs =>
      cases number : hexNumber? [p, q] with
      | none => simp [number] at h
      | some code =>
        simp only [number, Option.bind_eq_bind, Option.bind_some] at h
        obtain ⟨more, leaves⟩ := leaves_of_map h (not_mem_of_hexNumber? number)
        have small : code < 256 := by simpa using hexNumber?_lt number
        have own : (Char.ofNat code).toNat = code := by
          rw [Char.ofNat, dif_pos (.inl (by omega))]
          rfl
        refine .inl ⟨not_octal rfl _, .inl ⟨cs, more, Char.ofNat code, own.symm ▸ leaves, fun tail _ => ?_⟩⟩
        have read := readHex_append number (cs ++ tail)
        simp only [List.cons_append, List.nil_append, List.length_cons, List.length_nil] at read
        simp [readEscape, read]
    case h_9 => cases h
    case h_10 cs =>
      cases number : Script.bracedNumber? cs 0 false with
      | none => simp [number] at h
      | some r =>
        obtain ⟨code, rest⟩ := r
        simp only [number, Option.bind_eq_bind, Option.bind_some] at h
        obtain ⟨low, digits, rfl, nonempty, number, plain⟩ :=
          bracedNumber?_eq_some number (by decide)
        have backslash : '\\' ∉ '{' :: (digits ++ ['}']) := by
          simp [not_mem_of_hexNumber? number]
        obtain ⟨more, leaves⟩ := leaves_of_map h backslash
        rw [show '{' :: (digits ++ ['}']) ++ rest = '{' :: (digits ++ '}' :: rest) by simp] at leaves
        refine .inl ⟨not_octal rfl _, .inr ⟨rfl, rest, more, code, leaves, low, fun tail => ?_⟩⟩
        rw [List.cons_append, readCode, List.append_assoc, List.cons_append]
        exact readBraced_append number (nonempty rfl) plain low (rest ++ tail)
    case h_11 p q r s cs brace =>
      cases number : hexNumber? [p, q, r, s] with
      | none => simp [number] at h
      | some code =>
        simp only [number, Option.bind_eq_bind, Option.bind_some] at h
        obtain ⟨more, leaves⟩ := leaves_of_map h (not_mem_of_hexNumber? number)
        have small : code < 65536 := by simpa using hexNumber?_lt number
        refine .inl ⟨not_octal rfl _, .inr ⟨rfl, cs, more, code, leaves, by omega, fun tail => ?_⟩⟩
        have read := readHex_append number (cs ++ tail)
        simp only [List.cons_append, List.nil_append, List.length_cons, List.length_nil] at read
        simp only [List.cons_append]
        rw [readCode]
        · exact read
        · rintro cs' same
          obtain ⟨rfl, -⟩ := List.cons.inj same
          exact brace rfl
    case h_12 => cases h
    case h_13 _ _ n t r b f v x u _ _ _ _ =>
      have special : c ≠ 'n' ∧ c ≠ 't' ∧ c ≠ 'r' ∧ c ≠ 'b' ∧ c ≠ 'f' ∧ c ≠ 'v' ∧ c ≠ 'x' ∧ c ≠ 'u' :=
        ⟨n, t, r, b, f, v, x, u⟩
      rw [inline] at h
      simp only [Bool.false_eq_true, if_false] at h
      by_cases zero : c = '0'
      · subst zero
        by_cases apart : NoDigit cs
        · have alone : (cs.head?.map Script.isOctal).getD false = false := by
            cases cs with
            | nil => rfl
            | cons d cs => exact isOctal_digit (apart d rfl)
          rw [if_pos (by simp [alone])] at h
          refine .inl ⟨fun octal => octal.2 rfl apart, .inl (letter_of_map '\x00' h ?_)⟩
          intro tail free
          rw [readEscape_zero, if_pos ((noDigit_append free).2 apart)]
        · refine .inr ⟨⟨rfl, fun _ => apart⟩, fun tail => ?_⟩
          cases cs with
          | nil => exact absurd (by simp [NoDigit]) apart
          | cons d cs => rw [readEscape_zero, if_neg (by simpa [NoDigit] using apart)]
      · have lineFeed : c ≠ '\n' := by
          rintro rfl
          cases inline
        have carriageReturn : c ≠ '\r' := by
          rintro rfl
          cases inline
        cases digit : c.isDigit with
        | true =>
          refine .inr ⟨⟨digit, fun same => absurd same zero⟩, fun tail => ?_⟩
          rw [readEscape_other lineFeed carriageReturn special zero, if_pos digit]
        | false =>
          rw [if_neg (by simp [zero]), if_neg (by simp [isOctal_digit digit])] at h
          refine .inl ⟨not_octal digit cs, .inl (letter_of_map c h fun tail _ => ?_)⟩
          rw [readEscape_other lineFeed carriageReturn special zero, digit]
          rfl

/-! ## Values -/

def Agrees (quote : Char) (start rest body chars : List Char) : Prop :=
  if Digited body then ∃ fault, readBody quote start (body ++ quote :: rest) = .error fault
  else readBody quote start (body ++ quote :: rest) = .ok (chars, rest)

theorem Agrees.step {quote : Char} {start rest body body' chars out : List Char}
    (h : Agrees quote start rest body' chars) (same : Digited body ↔ Digited body')
    (reads : readBody quote start (body ++ quote :: rest) =
      (readBody quote start (body' ++ quote :: rest)).map fun (more, rest) => (out ++ more, rest)) :
    Agrees quote start rest body (out ++ chars) := by
  unfold Agrees at *
  rw [reads]
  split_ifs at h with old
  · obtain ⟨fault, failed⟩ := h
    rw [if_pos (same.2 old), failed]
    exact ⟨fault, rfl⟩
  · rw [if_neg (mt same.1 old), h]
    rfl

theorem readBody_escape {quote : Char} (hq : quote ≠ '\\') {start cs out rest : List Char}
    (h : readEscape cs = some (out, rest)) : readBody quote start ('\\' :: cs) =
      (readBody quote start rest).map fun (more, rest) => (out ++ more, rest) := by
  rw [readBody, if_neg hq.symm, if_pos rfl]
  split
  next none => rw [h] at none; cases none
  next out' rest' some =>
    rw [h] at some
    obtain ⟨rfl, rfl⟩ := Prod.mk.inj (Option.some.inj some)
    rfl

theorem readBody_raw {quote c : Char} {cs : List Char} (other : c ≠ quote) (backslash : c ≠ '\\')
    (interpolation : ¬(quote = '\x60' ∧ c = '$' ∧ cs.head? = some '{'))
    (line : ¬(quote ≠ '\x60' ∧ (c = '\n' ∨ c = '\r'))) (start : List Char) :
    readBody quote start (c :: cs) =
      (readBody quote start cs).map fun (more, rest) => ([c] ++ more, rest) := by
  rw [readBody, if_neg other, if_neg backslash, if_neg interpolation, if_neg line]
  rfl

theorem readBody_plain {quote c : Char} (other : c ≠ quote) (backslash : c ≠ '\\')
    (lineFeed : c ≠ '\n') (carriageReturn : c ≠ '\r') (plainQuote : quote ≠ '\x60')
    (start cs : List Char) : readBody quote start (c :: cs) =
      (readBody quote start cs).map fun (more, rest) => ([c] ++ more, rest) :=
  readBody_raw other backslash (by simp [plainQuote]) (by simp [lineFeed, carriageReturn]) start

theorem char_ne_surrogate (d : Char) : ¬(0xdc00 ≤ d.toNat ∧ d.toNat < 0xe000) := by
  have valid : d.toNat.isValidChar := d.valid
  simp only [Nat.isValidChar] at valid
  omega

theorem coded_of_surrogate {quote : Char} {fuel low : Nat} {cs : List Char} {more : List Nat}
    {octal : Bool} (one : OneLine quote cs) (h : decodeQuoted fuel cs = some (low :: more, octal))
    (range : 0xdc00 ≤ low ∧ low < 0xe000) :
    ∃ c rest, cs = '\\' :: c :: rest ∧ (Octal c rest ∨
      ∃ fewer, fuel = fewer + 1 ∧ ¬Octal c rest ∧ Coded fewer c rest (low :: more)) := by
  cases one with
  | nil => simp [decodeQuoted] at h
  | plain other escape lineFeed carriageReturn one =>
    cases fuel with
    | zero => simp [decodeQuoted] at h
    | succ fuel =>
      rw [decodeQuoted] at h
      · obtain ⟨r, -, same⟩ := Option.map_eq_some_iff.1 h
        rw [← (List.cons.inj (Prod.mk.inj same).1).1] at range
        exact absurd range (char_ne_surrogate _)
      · rintro d cs' rfl
        exact absurd rfl escape
  | @escape c rest inline one =>
    cases fuel with
    | zero => simp [decodeQuoted] at h
    | succ fuel =>
      refine ⟨c, rest, rfl, ?_⟩
      rcases decodeQuoted_escape h inline with ⟨new, ⟨_, _, d, leaves, -⟩ | coded⟩ | ⟨old, -⟩
      · rw [(List.cons.inj leaves.codes_eq).1] at range
        exact absurd range (char_ne_surrogate d)
      · exact .inr ⟨fuel, rfl, new, coded⟩
      · exact .inl old

theorem OneLine.behindEscape {quote c : Char} {cs : List Char} (h : OneLine quote ('\\' :: c :: cs)) :
    OneLine quote cs := by
  cases h with
  | escape _ one => exact one
  | plain _ escape => exact absurd rfl escape

theorem digited_leaves {fuel : Nat} {c : Char} {cs rest : List Char} {codes more : List Nat}
    {code : Nat} (h : Leaves fuel cs rest codes more code) (new : ¬Octal c cs) :
    Digited ('\\' :: c :: cs) ↔ Digited rest := by
  obtain ⟨⟨e, rfl, plain⟩, -, -⟩ := h
  rw [digited_escape, digited_behind plain]
  exact or_iff_right new

theorem Leaves.one {quote : Char} {fuel : Nat} {cs rest : List Char} {codes more : List Nat}
    {code : Nat} (h : Leaves fuel cs rest codes more code) (one : OneLine quote cs) :
    OneLine quote rest := by
  obtain ⟨⟨e, rfl, plain⟩, -, -⟩ := h
  exact one.behind plain

theorem agrees_of_octal {quote : Char} (hq : quote ≠ '\\') {start rest cs chars : List Char}
    (old : Digited ('\\' :: cs)) (h : readEscape (cs ++ quote :: rest) = none) :
    Agrees quote start rest ('\\' :: cs) chars := by
  rw [Agrees, if_pos old, List.cons_append, readBody, if_neg hq.symm, if_pos rfl]
  split
  · exact ⟨_, rfl⟩
  next some => rw [h] at some; cases some

theorem joinSurrogates_high {code : Nat} {codes : List Nat} {chars : List Char}
    (high : 0xd800 ≤ code ∧ code < 0xdc00) (h : joinSurrogates (code :: codes) = some chars) :
    ∃ low more behind, codes = low :: more ∧ (0xdc00 ≤ low ∧ low < 0xe000) ∧
      joinSurrogates more = some behind ∧
      chars = Char.ofNat (0x10000 + (code - 0xd800) * 0x400 + (low - 0xdc00)) :: behind := by
  cases codes with
  | nil => simp [joinSurrogates, high] at h
  | cons low more =>
    rw [joinSurrogates, if_pos (by simpa using high)] at h
    split at h
    next range =>
      obtain ⟨behind, joined, rfl⟩ := Option.map_eq_some_iff.1 h
      exact ⟨low, more, behind, rfl, by simpa using range, joined, rfl⟩
    · cases h

theorem joinSurrogates_single {code : Nat} {codes : List Nat} {chars : List Char}
    (high : ¬(0xd800 ≤ code ∧ code < 0xdc00)) (h : joinSurrogates (code :: codes) = some chars) :
    ¬(0xdc00 ≤ code ∧ code < 0xe000) ∧
      ∃ behind, joinSurrogates codes = some behind ∧ chars = Char.ofNat code :: behind := by
  have single : (decide (0xd800 ≤ code) && decide (code < 0xdc00)) = false := by
    simpa using high
  cases low : (decide (0xdc00 ≤ code) && decide (code < 0xe000)) with
  | true => cases codes <;> simp [joinSurrogates, single, low] at h
  | false =>
    have joined : (joinSurrogates codes).map (Char.ofNat code :: ·) = some chars := by
      cases codes <;> simpa [joinSurrogates, single, low] using h
    obtain ⟨behind, further, rfl⟩ := Option.map_eq_some_iff.1 joined
    exact ⟨by simpa using low, behind, further, rfl⟩

theorem readSurrogates_pair {code low : Nat} {cs rest : List Char}
    (high : 0xd800 ≤ code ∧ code < 0xdc00) (range : 0xdc00 ≤ low ∧ low < 0xe000)
    (h : readCode cs = some (low, rest)) : readSurrogates code ('\\' :: 'u' :: cs) =
      some (Char.ofNat (0x10000 + (code - 0xd800) * 0x400 + (low - 0xdc00)), rest) := by
  rw [readSurrogates, if_pos high]
  simp [h, range]

theorem readSurrogates_alone {code : Nat} {c : Char} (high : 0xd800 ≤ code ∧ code < 0xdc00)
    (other : c ≠ 'u') (cs : List Char) : readSurrogates code ('\\' :: c :: cs) = none := by
  rw [readSurrogates, if_pos high]
  rintro cs' same
  exact other (List.cons.inj (List.cons.inj same).2).1

theorem readEscape_unicode {cs rest : List Char} {code : Nat} (h : readCode cs = some (code, rest)) :
    readEscape ('u' :: cs) = (readSurrogates code rest).map fun (c, rest) => ([c], rest) := by
  cases found : readSurrogates code rest <;> simp [readEscape, h, found]

theorem readBody_decoded {quote : Char} (hq : quote = '"' ∨ quote = '\x27') (start rest : List Char)
    {fuel : Nat} {body chars : List Char} {codes : List Nat} {octal : Bool}
    (one : OneLine quote body) (decoded : decodeQuoted fuel body = some (codes, octal))
    (joined : joinSurrogates codes = some chars) : Agrees quote start rest body chars := by
  have backslash : quote ≠ '\\' := by rcases hq with rfl | rfl <;> decide
  have plainQuote : quote ≠ '\x60' := by rcases hq with rfl | rfl <;> decide
  have free : NoDigit (quote :: rest) := by rcases hq with rfl | rfl <;> simp [NoDigit]
  induction fuel using Nat.strong_induction_on generalizing body chars codes octal with
  | _ fuel ih =>
    cases one with
    | nil =>
      rw [decodeQuoted] at decoded
      obtain ⟨rfl, rfl⟩ := Prod.mk.inj (Option.some.inj decoded)
      obtain rfl := Option.some.inj joined
      rw [Agrees, if_neg (by simp [Digited, escapes]), List.nil_append, readBody, if_pos rfl]
    | @plain c cs other escape lineFeed carriageReturn one =>
      cases fuel with
      | zero => simp [decodeQuoted] at decoded
      | succ fuel =>
        rw [decodeQuoted] at decoded
        · obtain ⟨⟨more, octal⟩, further, same⟩ := Option.map_eq_some_iff.1 decoded
          obtain ⟨rfl, rfl⟩ := Prod.mk.inj same
          rw [joinSurrogates_char] at joined
          obtain ⟨behind, joined', rfl⟩ := Option.map_eq_some_iff.1 joined
          refine @Agrees.step _ _ _ _ _ _ [c] (ih fuel (by omega) one further joined') ?_ ?_
          · rw [Digited, Digited, escapes_plain escape]
          · exact readBody_plain other escape lineFeed carriageReturn plainQuote start _
        · rintro d cs' rfl
          exact absurd rfl escape
    | @escape c cs inline one =>
      cases fuel with
      | zero => simp [decodeQuoted] at decoded
      | succ fuel =>
        rcases decodeQuoted_escape decoded inline with ⟨new, letter | coded⟩ | ⟨old, fails⟩
        · obtain ⟨behind, more, d, leaves, reads⟩ := letter
          obtain ⟨octal', further⟩ := leaves.decoded
          rw [leaves.codes_eq, joinSurrogates_char] at joined
          obtain ⟨chars', joined', rfl⟩ := Option.map_eq_some_iff.1 joined
          exact @Agrees.step _ _ _ _ _ _ [d] (ih fuel (by omega) (leaves.one one) further joined')
            (digited_leaves leaves new) (readBody_escape backslash (reads _ free))
        · obtain ⟨rfl, behind, more, code, leaves, low, reads⟩ := coded
          obtain ⟨octal', further⟩ := leaves.decoded
          rw [leaves.codes_eq] at joined
          by_cases high : 0xd800 ≤ code ∧ code < 0xdc00
          · obtain ⟨second, fewer, chars', rfl, range, joined', rfl⟩ := joinSurrogates_high high joined
            obtain ⟨c, cs', rfl, old | ⟨fuel', rfl, new', coded⟩⟩ :=
              coded_of_surrogate (leaves.one one) further range
            · refine agrees_of_octal backslash
                ((digited_leaves leaves new).2 (digited_escape.2 (.inl old))) ?_
              have alone : c ≠ 'u' := by
                rintro rfl
                cases old.1
              rw [List.cons_append, readEscape_unicode (reads _), List.cons_append, List.cons_append,
                readSurrogates_alone high alone]
              rfl
            · obtain ⟨rfl, behind', more', code', leaves', -, reads'⟩ := coded
              obtain ⟨octal'', further'⟩ := leaves'.decoded
              obtain ⟨rfl, rfl⟩ := List.cons.inj leaves'.codes_eq
              have both : readEscape ('u' :: (cs ++ quote :: rest)) =
                  some ([Char.ofNat (0x10000 + (code - 0xd800) * 0x400 + (second - 0xdc00))],
                    behind' ++ quote :: rest) := by
                rw [readEscape_unicode (reads _), List.cons_append, List.cons_append,
                  readSurrogates_pair high range (reads' _)]
                rfl
              exact (ih fuel' (by omega) (leaves'.one (leaves.one one).behindEscape) further' joined').step
                ((digited_leaves leaves new).trans (digited_leaves leaves' new'))
                (readBody_escape backslash both)
          · obtain ⟨alone, chars', joined', rfl⟩ := joinSurrogates_single high joined
            have single : readEscape ('u' :: (cs ++ quote :: rest)) =
                some ([Char.ofNat code], behind ++ quote :: rest) := by
              have valid : code.isValidChar := by
                simp only [Nat.isValidChar]
                omega
              rw [readEscape_unicode (reads _)]
              unfold readSurrogates
              rw [if_neg high, if_pos valid]
              rfl
            exact (ih fuel (by omega) (leaves.one one) further joined').step
              (digited_leaves leaves new) (readBody_escape backslash single)
        · exact agrees_of_octal backslash (digited_escape.2 (.inl old)) (fails _)

/-! ## Tokens -/

/-- A quoted text that is a token of a script has the value that the token has, unless it has an old
octal escape. -/
theorem value_of_token {q : Quoted} {rest : List Char} {value : String}
    (plain : q.quote = '"' ∨ q.quote = '\x27')
    (reads : Script.Lexical.token.rest? (q.text ++ rest) = some rest)
    (known : Script.Item.value? ⟨.token, q.text⟩ = some value) (single : ¬Continued q.body) :
    OneLine q.quote q.body ∧
      q.value = if Digited q.body then String.ofList q.body else value := by
  obtain ⟨quote, body⟩ := q
  dsimp only at plain single ⊢
  have backslash : quote ≠ '\\' := by rcases plain with rfl | rfl <;> decide
  have lexed (cs : List Char) : lexeme? (quote :: cs) 0 = textLexeme quote cs 0 := by
    rcases plain with rfl | rfl <;> rfl
  have shape (tail : List Char) : (Quoted.mk quote body).text ++ tail =
      quote :: (body ++ quote :: tail) := by
    simp [Quoted.text]
  rw [shape, Script.Lexical.rest?, lexed] at reads
  obtain ⟨lexeme, found, behind⟩ := Option.map_eq_some_iff.1 reads
  obtain ⟨w, whole, other⟩ := Script.textLexeme_eq_some backslash found
  rw [behind, List.append_cancel_right_eq] at whole
  subst whole
  have alone := shape []
  rw [List.append_nil] at alone
  -- The token by itself is the one that is read in the script.
  have own : lexeme.token = .text (some value) := by
    rw [Script.Item.value?, Script.Item.token?, alone] at known
    simp only [lexed, other, Option.map_some] at known
    split at known
    next token => rw [Option.some.inj token, known]
    · cases known
  simp only [textLexeme, Option.bind_eq_bind, Option.bind_eq_some_iff] at found
  obtain ⟨⟨written, rest'⟩, scanned, ⟨codes, octal⟩, decoded, same⟩ := found
  obtain rfl := Option.some.inj same
  obtain rfl : rest' = rest := behind
  obtain ⟨_, whole, rfl, one⟩ := oneLine_of_scanQuoted scanned
  obtain rfl := List.append_cancel_right whole
  have line := one single
  obtain ⟨chars, joined, rfl⟩ := Option.map_eq_some_iff.1 (Script.Token.text.inj own)
  refine ⟨line, ?_⟩
  have agrees := readBody_decoded plain (quote :: (body ++ [quote])) [] line decoded joined
  have quoted : isQuote quote = true := by rcases plain with rfl | rfl <;> rfl
  rw [Agrees] at agrees
  rw [Quoted.value, alone]
  split_ifs at agrees ⊢ with old
  · obtain ⟨fault, failed⟩ := agrees
    rw [parseValue_of_fault quoted failed]
  · rw [parseValue_of_readBody quoted agrees]

end BundlePrep.Message
