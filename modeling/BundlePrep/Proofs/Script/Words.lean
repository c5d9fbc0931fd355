import BundlePrep.Proofs.Script.Lookahead
import BundlePrep.Script.Scan
import Mathlib.Data.List.TakeWhile

/-!
# Readers of words and numbers

A word or a number is read without what follows it, and in the same way in front of any other text
that goes on neither.
-/

set_option autoImplicit false

namespace BundlePrep.Script

open BundlePrep.Text

def Breaks (rest : List Char) : Prop :=
  ∀ c ∈ rest.head?, isNamePart c = false ∧ c ≠ '\\'

theorem Breaks.not_isNameStart {rest : List Char} (h : Breaks rest) :
    ∀ c ∈ rest.head?, isNameStart c = false := by
  intro c mem
  by_contra start
  rw [Bool.not_eq_false] at start
  exact absurd (isNamePart_of_isNameStart start) (by simp [(h c mem).1])

theorem Breaks.head {rest rest' : List Char} (h : Breaks rest) (same : rest'.head? = rest.head?) :
    Breaks rest' := fun c mem => h c (same ▸ mem)

theorem not_newline {p : Char → Bool} (lineFeed : p '\n' = false)
    (carriageReturn : p '\r' = false) {c : Char} (h : p c = true) : isNewline c = false := by
  by_contra newline
  simp only [isNewline, Bool.not_eq_false, Bool.or_eq_true, beq_iff_eq] at newline
  rcases newline with rfl | rfl
  · rw [lineFeed] at h
    cases h
  · rw [carriageReturn] at h
    cases h

theorem not_newline_of_part {c : Char} (h : isNamePart c = true) : isNewline c = false :=
  not_newline (p := isNamePart) (by decide) (by decide) h

theorem not_newline_of_start {c : Char} (h : isNameStart c = true) : isNewline c = false :=
  not_newline_of_part (isNamePart_of_isNameStart h)

theorem not_newline_of_hex {c : Char} {value : Nat} (h : hexValue? c = some value) :
    isNewline c = false :=
  not_newline (p := isHex) (by decide) (by decide) (by rw [isHex, h]; rfl)

/-! ## Words -/

theorem scanWord_here {acc rest : List Char} (h : Breaks rest) (pos : Nat) (escaped : Bool) :
    scanWord .outside acc rest pos escaped = some ⟨acc.reverse, rest, pos, escaped⟩ := by
  cases rest with
  | nil => rw [scanWord]
  | cons c rest =>
    obtain ⟨part, backslash⟩ := h c rfl
    have start := h.not_isNameStart c rfl
    rw [scanWord]
    · simp [part, start]
    all_goals
      intros
      subst_vars
      exact backslash rfl

example : scanWord .outside [] ['a', '+'] 0 false = some ⟨['a'], ['+'], 1, false⟩ := by cbv

theorem scanWord_eq_some {braced : Braced} {acc cs : List Char} {pos : Nat} {escaped : Bool}
    {word : Word} (h : scanWord braced acc cs pos escaped = some word) :
    (word.text ≠ [] → Breaks word.rest) ∧ ∃ w, Closed w ∧ cs = w ++ word.rest ∧
      ∀ rest, Breaks rest →
        scanWord braced acc (w ++ rest) pos escaped = some { word with rest := rest } := by
  fun_induction scanWord braced acc cs pos escaped with
  | case1 acc cs pos escaped ih =>
    obtain ⟨breaks, w, closed, rfl, other⟩ := ih h
    exact ⟨breaks, '\\' :: 'u' :: '{' :: w,
      (closed_of_all (w := ['\\', 'u', '{']) (by decide)).append closed, rfl, other⟩
  | case2 acc p q r s cs pos escaped unbraced ih =>
    simp only [Option.bind_eq_bind, Option.bind_eq_some_iff] at h
    obtain ⟨code, hex, c, char, h⟩ := h
    obtain ⟨breaks, w, closed, rfl, other⟩ := ih c h
    have last : isNewline s = false := by
      simp only [hexNumber?, List.foldlM_cons, Option.bind_eq_bind, Option.bind_eq_some_iff,
        Option.map_eq_some_iff] at hex
      obtain ⟨-, -, -, -, -, -, -, ⟨value, found, -⟩, -⟩ := hex
      exact not_newline_of_hex found
    refine ⟨breaks, '\\' :: 'u' :: p :: q :: r :: s :: w, ?_, rfl, fun rest breaks' => ?_⟩
    · exact (closed_last last ['\\', 'u', p, q, r]).append closed
    show scanWord .outside acc ('\\' :: 'u' :: p :: q :: r :: s :: (w ++ rest)) pos escaped = _
    rw [scanWord]
    · simp [hex, char, other rest breaks']
    · exact unbraced
  | case3 => cases h
  | case4 acc c cs pos escaped braced hex backslash part ih =>
    obtain ⟨breaks, w, closed, rfl, other⟩ := ih h
    have letter : isNewline c = false := by
      split at part
      · exact not_newline_of_start part
      · exact not_newline_of_part part
    refine ⟨breaks, c :: w, closed.cons letter, rfl, fun rest breaks' => ?_⟩
    rw [List.cons_append, scanWord]
    · rw [if_pos part, other rest breaks']
    all_goals
      intros
      exact backslash ‹_›
  | case5 acc c cs pos escaped braced hex backslash part =>
    obtain rfl := Option.some.inj h
    refine ⟨fun text => ?_, [], closed_nil, rfl, fun rest breaks => scanWord_here breaks pos escaped⟩
    intro d mem
    obtain rfl : c = d := by simpa using mem
    have letters : acc.isEmpty = false := by
      cases acc with
      | nil => exact absurd rfl text
      | cons => rfl
    rw [letters] at part
    exact ⟨by simpa using part, backslash⟩
  | case6 acc pos escaped =>
    obtain rfl := Option.some.inj h
    exact ⟨fun _ => by simp [Breaks], [], closed_nil, rfl,
      fun rest breaks => scanWord_here breaks pos escaped⟩
  | case7 value acc cs pos escaped ih =>
    simp only [Option.bind_eq_bind, Option.bind_eq_some_iff] at h
    obtain ⟨c, char, h⟩ := h
    obtain ⟨breaks, w, closed, rfl, other⟩ := ih c h
    refine ⟨breaks, '}' :: w, closed.cons rfl, rfl, fun rest breaks' => ?_⟩
    rw [List.cons_append, scanWord]
    simp [char, other rest breaks']
  | case8 acc c cs pos escaped ih =>
    simp only [Option.bind_eq_bind, Option.bind_eq_some_iff] at h
    obtain ⟨value, hex, h⟩ := h
    obtain ⟨breaks, w, closed, rfl, other⟩ := ih value h
    refine ⟨breaks, c :: w, closed.cons (not_newline_of_hex hex), rfl, fun rest breaks' => ?_⟩
    rw [List.cons_append, scanWord]
    simp [hex, other rest breaks']
  | case9 value acc c cs pos escaped digit ih =>
    simp only [Option.bind_eq_bind, Option.bind_eq_some_iff] at h
    obtain ⟨last, hex, h⟩ := h
    split at h
    next small =>
      obtain ⟨breaks, w, closed, rfl, other⟩ := ih last h
      refine ⟨breaks, c :: w, closed.cons (not_newline_of_hex hex), rfl, fun rest breaks' => ?_⟩
      rw [List.cons_append, scanWord]
      · simp [hex, small, other rest breaks']
      · exact digit
    · cases h
  | case10 => cases h

theorem scanWord_nonempty {braced : Braced} {acc cs : List Char} {pos : Nat} {escaped : Bool}
    {word : Word} (nonempty : acc ≠ []) (h : scanWord braced acc cs pos escaped = some word) :
    word.text ≠ [] := by
  fun_induction scanWord braced acc cs pos escaped with
  | case1 _ _ _ _ ih => exact ih nonempty h
  | case2 acc p q r s cs pos escaped unbraced ih =>
    simp only [Option.bind_eq_bind, Option.bind_eq_some_iff] at h
    obtain ⟨code, hex, c, char, h⟩ := h
    exact ih c (by simp) h
  | case3 => cases h
  | case4 _ _ _ _ _ _ _ _ _ ih => exact ih (by simp) h
  | case5 =>
    obtain rfl := Option.some.inj h
    simpa using nonempty
  | case6 =>
    obtain rfl := Option.some.inj h
    simpa using nonempty
  | case7 value acc cs pos escaped ih =>
    simp only [Option.bind_eq_bind, Option.bind_eq_some_iff] at h
    obtain ⟨c, char, h⟩ := h
    exact ih c (by simp) h
  | case8 acc c cs pos escaped ih =>
    simp only [Option.bind_eq_bind, Option.bind_eq_some_iff] at h
    obtain ⟨value, hex, h⟩ := h
    exact ih value nonempty h
  | case9 value acc c cs pos escaped digit ih =>
    simp only [Option.bind_eq_bind, Option.bind_eq_some_iff] at h
    obtain ⟨last, hex, h⟩ := h
    split at h
    · exact ih last nonempty h
    · cases h
  | case10 => cases h

theorem scanWord_letter {c : Char} (letter : isNameStart c = true) (cs : List Char) (pos : Nat)
    (escaped : Bool) : scanWord .outside [] (c :: cs) pos escaped =
      scanWord .outside [c] cs (pos + c.utf8Size) escaped := by
  have backslash : c ≠ '\\' := by
    rintro rfl
    exact absurd letter (by decide)
  rw [scanWord]
  · exact if_pos letter
  all_goals
    intros
    exact backslash ‹_›

theorem scanWord_parts {w rest : List Char} (acc : List Char) (nonempty : acc ≠ [])
    (h : ∀ c ∈ w, isNamePart c = true ∧ c ≠ '\\') (breaks : Breaks rest) (pos : Nat) :
    ∃ word, scanWord .outside acc (w ++ rest) pos false = some word ∧ word.text ≠ [] ∧
      word.rest = rest := by
  induction w generalizing acc pos with
  | nil =>
    refine ⟨_, scanWord_here breaks pos false, ?_, rfl⟩
    simpa using nonempty
  | cons c w ih =>
    obtain ⟨part, backslash⟩ := h c (List.mem_cons_self ..)
    have more := ih (c :: acc) (by simp) (fun d mem => h d (List.mem_cons_of_mem c mem))
      (pos + c.utf8Size)
    rw [List.cons_append, scanWord]
    · simpa [nonempty, part] using more
    all_goals
      intros
      exact backslash ‹_›

/-! ## Numbers -/

def Stops (digit : Char → Bool) (rest : List Char) : Prop :=
  ∀ c ∈ rest.head?, digit c = false ∧ c ≠ '_'

theorem Stops.append {digit : Char → Bool} {w rest rest' : List Char}
    (h : Stops digit (w ++ rest)) (h' : Stops digit rest') : Stops digit (w ++ rest') := by
  cases w with
  | nil => exact h'
  | cons c w => exact h

theorem digitRun_here {digit : Char → Bool} {rest : List Char} (h : Stops digit rest)
    (after : Bool) (count : Nat) : digitRun digit after rest count = some (count, rest) := by
  cases rest with
  | nil => rw [digitRun]
  | cons c rest =>
    obtain ⟨other, separator⟩ := h c rfl
    rw [digitRun, other]
    · rfl
    · exact separator

theorem digitRun_eq_some {digit : Char → Bool} {after : Bool} {cs rest : List Char}
    {count n : Nat} (plain : ∀ c, digit c = true → isNewline c = false)
    (h : digitRun digit after cs count = some (n, rest)) :
    Stops digit rest ∧ ∃ w, Closed w ∧ cs = w ++ rest ∧ ∀ rest', Stops digit rest' →
      digitRun digit after (w ++ rest') count = some (n, rest') := by
  fun_induction digitRun digit after cs count with
  | case1 after cs count inside ih =>
    obtain ⟨stops, w, closed, whole, other⟩ := ih h
    obtain ⟨d, next, digits⟩ : ∃ d, cs.head? = some d ∧ digit d = true := by
      simp only [Bool.and_eq_true] at inside
      cases head : cs.head? with
      | none => simp [head] at inside
      | some d => exact ⟨d, rfl, by simpa [head] using inside.2⟩
    cases w with
    | nil =>
      rw [List.nil_append] at whole
      rw [whole] at next
      exact absurd digits (by simp [(stops d next).1])
    | cons c w =>
      subst whole
      refine ⟨stops, '_' :: c :: w, closed.cons rfl, rfl, fun rest' stops' => ?_⟩
      rw [List.cons_append, digitRun, ← other rest' stops']
      exact if_pos inside
  | case2 => cases h
  | case3 after c cs count separator isDigit ih =>
    obtain ⟨stops, w, closed, rfl, other⟩ := ih h
    refine ⟨stops, c :: w, closed.cons (plain c isDigit), rfl, fun rest' stops' => ?_⟩
    rw [List.cons_append, digitRun]
    · rw [if_pos isDigit, other rest' stops']
    · exact separator
  | case4 after c cs count separator noDigit =>
    obtain ⟨rfl, rfl⟩ := Prod.mk.inj (Option.some.inj h)
    refine ⟨fun d mem => ?_, [], closed_nil, rfl, fun rest' stops' => digitRun_here stops' after _⟩
    obtain rfl : c = d := by simpa using mem
    exact ⟨by simpa using noDigit, separator⟩
  | case5 after count =>
    obtain ⟨rfl, rfl⟩ := Prod.mk.inj (Option.some.inj h)
    exact ⟨by simp [Stops], [], closed_nil, rfl, fun rest' stops' => digitRun_here stops' after _⟩

theorem endsNumeral_stops {rest : List Char} (h : endsNumeral rest = true) {digit : Char → Bool}
    (digits : ∀ c, digit c = true → c.isDigit = true ∨ isNameStart c = true) :
    Stops digit rest := by
  intro c mem
  obtain ⟨cs, rfl⟩ := List.head?_eq_some_iff.1 mem
  simp only [endsNumeral, Bool.not_eq_true', Bool.or_eq_false_iff] at h
  constructor
  · by_contra isDigit
    rw [Bool.not_eq_false] at isDigit
    rcases digits c isDigit with digit | letter
    · simp [digit] at h
    · simp [letter] at h
  · rintro rfl
    exact absurd h.1.1 (by decide)

theorem endsNumeral_ne {rest : List Char} (h : endsNumeral rest = true) {c : Char}
    (letter : isNameStart c = true) : rest.head? ≠ some c := by
  intro head
  obtain ⟨cs, rfl⟩ := List.head?_eq_some_iff.1 head
  simp [endsNumeral, letter] at h

theorem scanExponent_here {rest : List Char} (h : endsNumeral rest = true) (length : Nat) :
    scanExponent length rest = some (length, rest) := by
  cases rest with
  | nil => rfl
  | cons c rest =>
    have small : c ≠ 'e' := fun same => endsNumeral_ne h (c := 'e') (by decide) (by rw [same]; rfl)
    have large : c ≠ 'E' := fun same => endsNumeral_ne h (c := 'E') (by decide) (by rw [same]; rfl)
    rw [scanExponent, if_neg (by simp [small, large])]

theorem digitRun_head {digit : Char → Bool} {cs rest : List Char} {n : Nat} (positive : n ≠ 0)
    (h : digitRun digit false cs 0 = some (n, rest)) : ∃ d ds, cs = d :: ds ∧ digit d = true := by
  cases cs with
  | nil =>
    obtain ⟨rfl, -⟩ := Prod.mk.inj (Option.some.inj h)
    exact absurd rfl positive
  | cons c cs =>
    by_cases isDigit : digit c = true
    · exact ⟨c, cs, rfl, isDigit⟩
    · by_cases separator : c = '_'
      · subst separator
        rw [digitRun] at h
        cases h
      · rw [digitRun, if_neg isDigit] at h
        · obtain ⟨rfl, -⟩ := Prod.mk.inj (Option.some.inj h)
          exact absurd rfl positive
        · exact separator

theorem exponentSign_append {cs digits : List Char} {signed : Nat}
    (h : exponentSign cs = (signed, digits)) :
    ∃ w, Closed w ∧ cs = w ++ digits ∧ ∀ rest, (∃ d ds, rest = d :: ds ∧ d.isDigit = true) →
      exponentSign (w ++ rest) = (signed, rest) := by
  unfold exponentSign at h
  split at h
  · obtain ⟨rfl, rfl⟩ := Prod.mk.inj h
    exact ⟨['+'], closed_of_all (by decide), rfl, fun rest _ => rfl⟩
  · obtain ⟨rfl, rfl⟩ := Prod.mk.inj h
    exact ⟨['-'], closed_of_all (by decide), rfl, fun rest _ => rfl⟩
  · obtain ⟨rfl, rfl⟩ := Prod.mk.inj h
    refine ⟨[], closed_nil, rfl, ?_⟩
    rintro rest ⟨d, ds, rfl, digit⟩
    rw [List.nil_append, exponentSign]
    all_goals
      rintro ds' same
      rw [(List.cons.inj same).1] at digit
      exact absurd digit (by decide)

theorem decimal (c : Char) (h : c.isDigit = true) : isNewline c = false :=
  not_newline (p := Char.isDigit) rfl rfl h

theorem scanExponent_eq_some {length n : Nat} {cs rest : List Char}
    (h : scanExponent length cs = some (n, rest)) :
    ∃ w, Closed w ∧ cs = w ++ rest ∧ ∀ rest', endsNumeral rest' = true →
      scanExponent length (w ++ rest') = some (n, rest') := by
  cases cs with
  | nil =>
    obtain ⟨rfl, rfl⟩ := Prod.mk.inj (Option.some.inj h)
    exact ⟨[], closed_nil, rfl, fun rest' ends => scanExponent_here ends _⟩
  | cons e cs =>
    by_cases exponent : (e == 'e' || e == 'E') = true
    · cases sign : exponentSign cs with
      | mk signed digits =>
        obtain ⟨w, closed, rfl, signs⟩ := exponentSign_append sign
        rw [scanExponent, if_pos exponent, sign] at h
        dsimp only at h
        split at h
        · cases h
        next count behind positive run =>
          obtain ⟨rfl, rfl⟩ := Prod.mk.inj (Option.some.inj h)
          obtain ⟨-, w', closed', rfl, other⟩ := digitRun_eq_some decimal run
          have letter : isNewline e = false :=
            not_newline (p := fun c => c == 'e' || c == 'E') rfl rfl exponent
          refine ⟨e :: (w ++ w'), (closed.append closed').cons letter, by simp, fun rest' ends => ?_⟩
          have run' := other rest' (endsNumeral_stops ends fun c digit => .inl digit)
          rw [List.cons_append, scanExponent, if_pos exponent, List.append_assoc,
            signs _ (digitRun_head positive run')]
          dsimp only
          rw [run']
          cases count with
          | zero => exact (positive rfl).elim
          | succ count => rfl
        · cases h
    · rw [scanExponent, if_neg exponent] at h
      obtain ⟨rfl, rfl⟩ := Prod.mk.inj (Option.some.inj h)
      exact ⟨[], closed_nil, rfl, fun rest' ends => scanExponent_here ends _⟩

def Ends (rest rest' : List Char) : Prop :=
  endsNumeral rest' = true ∧ (rest'.head? = some '.' → rest.head? = some '.')

theorem scanRadix_eq_some {digit : Char → Bool} {cs : List Char} {numeral : Numeral}
    (digits : ∀ c, digit c = true → c.isDigit = true ∨ isNameStart c = true)
    (h : scanRadix digit cs = some numeral) :
    ∃ w, Closed w ∧ cs = w ++ numeral.rest ∧ ∀ rest, endsNumeral rest = true →
      scanRadix digit (w ++ rest) = some { numeral with rest := rest } := by
  simp only [scanRadix, Option.bind_eq_bind, Option.bind_eq_some_iff] at h
  obtain ⟨⟨count, behind⟩, run, h⟩ := h
  have plain (c : Char) (digit : digit c = true) : isNewline c = false :=
    (digits c digit).elim (decimal c) not_newline_of_start
  obtain ⟨stops, w, closed, rfl, other⟩ := digitRun_eq_some plain run
  dsimp only at h
  split at h
  · cases h
  next positive =>
    split at h
    next rest =>
      obtain rfl := Option.some.inj h
      refine ⟨w ++ ['n'], closed_last rfl w, by simp, fun rest' ends => ?_⟩
      have run' := other ('n' :: rest') stops
      simp only [scanRadix, List.append_assoc, List.cons_append, List.nil_append, run', Option.bind_eq_bind,
        Option.bind_some, if_neg positive]
    next =>
      obtain rfl := Option.some.inj h
      refine ⟨w, closed, rfl, fun rest' ends => ?_⟩
      have run' := other rest' (endsNumeral_stops ends digits)
      simp only [scanRadix, run', Option.bind_eq_bind, Option.bind_some, if_neg positive]
      split
      · exact absurd rfl (endsNumeral_ne ends (c := 'n') (by decide))
      · rfl

theorem scanFraction_here {rest : List Char} (h : endsNumeral rest = true)
    (dot : rest.head? ≠ some '.') (length : Nat) (big octal : Bool) :
    scanFraction length big octal rest = some ⟨length, rest, octal⟩ := by
  have letter := endsNumeral_ne h (c := 'n') (by decide)
  rw [scanFraction]
  · rw [scanExponent_here h]
    rfl
  · rintro cs rfl
    exact dot rfl
  · rintro cs rfl
    exact letter rfl

theorem scanFraction_eq_some {length : Nat} {big octal : Bool} {cs : List Char}
    {numeral : Numeral} (h : scanFraction length big octal cs = some numeral) :
    ∃ w, Closed w ∧ cs = w ++ numeral.rest ∧ ∀ rest, Ends numeral.rest rest →
      scanFraction length big octal (w ++ rest) = some { numeral with rest := rest } := by
  fun_cases scanFraction length big octal cs with
  | case1 cs =>
    rw [scanFraction] at h
    simp only [Option.bind_eq_bind, Option.bind_eq_some_iff] at h
    obtain ⟨⟨count, behind⟩, run, ⟨total, rest⟩, exponent, same⟩ := h
    obtain ⟨stops, w, closed, rfl, digits⟩ := digitRun_eq_some decimal run
    obtain ⟨w', closed', rfl, more⟩ := scanExponent_eq_some exponent
    obtain rfl := Option.some.inj same
    refine ⟨'.' :: (w ++ w'), (closed.append closed').cons rfl, by simp, fun rest' ends => ?_⟩
    have run' := digits (w' ++ rest')
      (stops.append (endsNumeral_stops ends.1 fun c digit => .inl digit))
    rw [List.cons_append, scanFraction, List.append_assoc, run']
    simp only [Option.bind_eq_bind, Option.bind_some, more rest' ends.1]
    rfl
  | case2 cs isBig =>
    rw [scanFraction, if_pos isBig] at h
    obtain rfl := Option.some.inj h
    refine ⟨['n'], closed_of_all (by decide), rfl, fun rest' ends => ?_⟩
    rw [List.cons_append, scanFraction, if_pos isBig]
    rfl
  | case3 cs small =>
    rw [scanFraction, if_neg small] at h
    cases h
  | case4 cs dot letter =>
    rw [scanFraction] at h
    · simp only [Option.bind_eq_bind, Option.bind_eq_some_iff] at h
      obtain ⟨⟨total, rest⟩, exponent, same⟩ := h
      obtain ⟨w, closed, rfl, more⟩ := scanExponent_eq_some exponent
      obtain rfl := Option.some.inj same
      refine ⟨w, closed, rfl, fun rest' ends => ?_⟩
      rw [scanFraction]
      · rw [more rest' ends.1]
        rfl
      · rintro cs' whole
        cases w with
        | nil =>
          have head := ends.2 (by rw [List.nil_append] at whole; rw [whole]; rfl)
          obtain ⟨cs, same⟩ := List.head?_eq_some_iff.1 head
          exact dot cs same
        | cons c w =>
          obtain ⟨rfl, -⟩ := List.cons.inj whole
          exact dot _ rfl
      · rintro cs' whole
        cases w with
        | nil =>
          refine endsNumeral_ne ends.1 (c := 'n') (by decide) ?_
          rw [List.nil_append] at whole
          rw [whole]
          rfl
        | cons c w =>
          obtain ⟨rfl, -⟩ := List.cons.inj whole
          exact letter _ rfl
    · exact dot
    · exact letter

theorem takeWhile_all {p : Char → Bool} {a b : List Char} (ha : ∀ c ∈ a, p c = true)
    (hb : ∀ c ∈ b.head?, p c = false) :
    (a ++ b).takeWhile p = a ∧ (a ++ b).dropWhile p = b := by
  rw [List.takeWhile_append_of_pos ha, List.dropWhile_append_of_pos ha]
  cases b with
  | nil => exact ⟨List.append_nil a, rfl⟩
  | cons c b => simp [hb c rfl]

theorem scanNumeral_leading {digits behind : List Char} (nonempty : digits ≠ [])
    (all : ∀ c ∈ digits, c.isDigit = true) (stops : Stops Char.isDigit behind) :
    scanNumeral ('0' :: (digits ++ behind)) =
      if digits.all isOctal then some ⟨1 + digits.length, behind, true⟩
      else scanFraction (1 + digits.length) false true behind := by
  obtain ⟨take, drop⟩ := takeWhile_all all fun c mem => (stops c mem).1
  have separator : behind.head? ≠ some '_' := fun head => (stops '_' head).2 rfl
  cases digits with
  | nil => exact absurd rfl nonempty
  | cons d digits =>
    have digit := all d (by simp)
    rw [List.cons_append] at take drop ⊢
    rw [scanNumeral]
    · rw [if_pos digit]
      dsimp only
      rw [take, drop, if_neg separator, isOctalNumeral, take]
    all_goals
      rintro rfl
      exact absurd digit (by decide)

theorem scanNumeral_separator {digits behind : List Char} (nonempty : digits ≠ [])
    (all : ∀ c ∈ digits, c.isDigit = true) (separator : behind.head? = some '_') :
    scanNumeral ('0' :: (digits ++ behind)) = none := by
  have other : ∀ c ∈ behind.head?, c.isDigit = false := by
    rw [separator]
    decide
  obtain ⟨take, drop⟩ := takeWhile_all all other
  cases digits with
  | nil => exact absurd rfl nonempty
  | cons d digits =>
    have digit := all d (by simp)
    rw [List.cons_append] at drop ⊢
    rw [scanNumeral]
    · rw [if_pos digit]
      dsimp only
      rw [drop, if_pos separator]
    all_goals
      rintro rfl
      exact absurd digit (by decide)

def isAfterZero (c : Char) : Bool := "xXoObB_".toList.contains c

theorem scanNumeral_zero {cs : List Char}
    (h : ∀ c ∈ cs.head?, c.isDigit = false ∧ isAfterZero c = false) :
    scanNumeral ('0' :: cs) = scanFraction 1 true false cs := by
  cases cs with
  | nil => rfl
  | cons c cs =>
    obtain ⟨digit, other⟩ := h c rfl
    rw [scanNumeral]
    · rw [if_neg (by simp [digit])]
    all_goals
      rintro rfl
      exact absurd other (by decide)

theorem scanNumeral_plain {cs : List Char} (h : cs.head? ≠ some '0') :
    scanNumeral cs = (digitRun Char.isDigit false cs 0).bind fun r =>
      scanFraction r.1 (0 < r.1) false r.2 := by
  rw [scanNumeral]
  · rfl
  all_goals
    intros
    subst_vars
    exact h rfl

theorem ends_afterZero {rest : List Char} (h : endsNumeral rest = true) :
    ∀ c ∈ rest.head?, c.isDigit = false ∧ isAfterZero c = false := by
  intro c mem
  refine ⟨(endsNumeral_stops h (fun d digit => .inl digit) c mem).1, ?_⟩
  by_contra after
  have letters : ∀ d ∈ "xXoObB_".toList, isNameStart d = true := by decide
  rw [Bool.not_eq_false, isAfterZero, List.contains_iff_mem] at after
  exact endsNumeral_ne h (letters c after) mem

theorem isDigit_of_le {c : Char} (low : '0' ≤ c) (high : c ≤ '9') : c.isDigit = true := by
  simp only [Char.isDigit, Bool.and_eq_true, decide_eq_true_eq]
  exact ⟨low, high⟩

theorem isNameStart_of_letter {c : Char} (h : 'a' ≤ c ∧ c ≤ 'f' ∨ 'A' ≤ c ∧ c ≤ 'F') :
    isNameStart c = true := by
  have small : c.toNat < 128 := by
    rcases h with ⟨-, high⟩ | ⟨-, high⟩
    · exact Nat.lt_of_le_of_lt (show c.toNat ≤ 'f'.toNat from high) (by decide)
    · exact Nat.lt_of_le_of_lt (show c.toNat ≤ 'F'.toNat from high) (by decide)
  have letter : c.isAlpha = true := by
    refine Bool.or_eq_true_iff.2 ?_
    rcases h with ⟨low, high⟩ | ⟨low, high⟩
    · right
      have below : c.val ≤ 'z'.val := UInt32.le_trans high (show 'f'.val ≤ 'z'.val by decide)
      exact Bool.and_eq_true_iff.2 ⟨decide_eq_true low, decide_eq_true below⟩
    · left
      have below : c.val ≤ 'Z'.val := UInt32.le_trans high (show 'F'.val ≤ 'Z'.val by decide)
      exact decide_eq_true ⟨low, below⟩
  rw [isNameStart, if_pos small, letter]
  rfl

theorem scanNumeral_radix {cs : List Char} {c : Char} {numeral : Numeral}
    (after : isAfterZero c = true) (h : scanNumeral ('0' :: c :: cs) = some numeral) :
    ∃ w, Closed w ∧ cs = w ++ numeral.rest ∧ ∀ rest, Ends numeral.rest rest →
      scanNumeral ('0' :: c :: (w ++ rest)) = some { numeral with rest := rest } := by
  have hex (d : Char) (digit : isHex d = true) : d.isDigit = true ∨ isNameStart d = true := by
    unfold isHex hexValue? at digit
    split_ifs at digit with decimal small large
    · exact .inl (isDigit_of_le decimal.1 decimal.2)
    · exact .inr (isNameStart_of_letter (.inl small))
    · exact .inr (isNameStart_of_letter (.inr large))
    · cases digit
  have octal (d : Char) (digit : isOctal d = true) : d.isDigit = true ∨ isNameStart d = true := by
    simp only [isOctal, Bool.and_eq_true, decide_eq_true_eq] at digit
    exact .inl (isDigit_of_le digit.1 (UInt32.le_trans digit.2 (show '7'.val ≤ '9'.val by decide)))
  have binary (d : Char) (digit : isBinary d = true) : d.isDigit = true ∨ isNameStart d = true := by
    simp only [isBinary, Bool.or_eq_true, beq_iff_eq] at digit
    rcases digit with rfl | rfl <;> exact .inl rfl
  rw [isAfterZero, List.contains_iff_mem] at after
  have letters : "xXoObB_".toList = ['x', 'X', 'o', 'O', 'b', 'B', '_'] := by decide
  rw [letters] at after
  simp only [List.mem_cons, List.not_mem_nil, or_false] at after
  rcases after with rfl | rfl | rfl | rfl | rfl | rfl | rfl
  case inr.inr.inr.inr.inr.inr => cases h
  all_goals
    rw [scanNumeral] at h
    obtain ⟨w, closed, rfl, other⟩ := scanRadix_eq_some (by assumption) h
    exact ⟨w, closed, rfl, fun rest ends => other rest ends.1⟩

theorem scanNumeral_eq_some {cs : List Char} {numeral : Numeral}
    (h : scanNumeral cs = some numeral) :
    ∃ w, Closed w ∧ cs = w ++ numeral.rest ∧ ∀ rest, Ends numeral.rest rest →
      scanNumeral (w ++ rest) = some { numeral with rest := rest } := by
  by_cases zero : cs.head? = some '0'
  · obtain ⟨cs, rfl⟩ := List.head?_eq_some_iff.1 zero
    by_cases leading : ∃ d ∈ cs.head?, d.isDigit = true
    · obtain ⟨d, head, digit⟩ := leading
      have whole : cs = cs.takeWhile Char.isDigit ++ cs.dropWhile Char.isDigit := by simp
      have nonempty : cs.takeWhile Char.isDigit ≠ [] := by
        obtain ⟨cs, rfl⟩ := List.head?_eq_some_iff.1 head
        simp [digit]
      have all : ∀ c ∈ cs.takeWhile Char.isDigit, c.isDigit = true :=
        fun c mem => List.mem_takeWhile_imp mem
      have behindDigit : ∀ c ∈ (cs.dropWhile Char.isDigit).head?, c.isDigit = false := by
        intro c mem
        have other := List.head?_dropWhile_not Char.isDigit cs
        rw [Option.mem_def.1 mem] at other
        simpa using other
      generalize cs.takeWhile Char.isDigit = digits at whole nonempty all
      generalize cs.dropWhile Char.isDigit = behind at whole behindDigit
      subst whole
      by_cases separator : behind.head? = some '_'
      · rw [scanNumeral_separator nonempty all separator] at h
        cases h
      · have stops : Stops Char.isDigit behind := fun c mem =>
          ⟨behindDigit c mem, fun same => separator (same ▸ mem)⟩
        rw [scanNumeral_leading nonempty all stops] at h
        split at h
        next octal =>
          obtain rfl := Option.some.inj h
          refine ⟨'0' :: digits, (closed_of_all fun c mem => decimal c (all c mem)).cons rfl, rfl,
            fun rest ends => ?_⟩
          have behindStops : Stops Char.isDigit rest :=
            endsNumeral_stops ends.1 fun c digit => .inl digit
          rw [List.cons_append, scanNumeral_leading nonempty all behindStops, if_pos octal]
        next other =>
          obtain ⟨w, closed, rfl, fraction⟩ := scanFraction_eq_some h
          have front : Closed digits := closed_of_all fun c mem => decimal c (all c mem)
          refine ⟨'0' :: (digits ++ w), (front.append closed).cons rfl, by simp, fun rest ends => ?_⟩
          have behindStops : Stops Char.isDigit rest :=
            endsNumeral_stops ends.1 fun c digit => .inl digit
          rw [List.cons_append, List.append_assoc,
            scanNumeral_leading nonempty all (stops.append behindStops), if_neg other,
            fraction rest ends]
    · by_cases after : ∃ c ∈ cs.head?, isAfterZero c = true
      · obtain ⟨c, head, after⟩ := after
        obtain ⟨cs, rfl⟩ := List.head?_eq_some_iff.1 head
        obtain ⟨w, closed, rfl, other⟩ := scanNumeral_radix after h
        have letter : isNewline c = false := not_newline (p := isAfterZero) rfl rfl after
        exact ⟨'0' :: c :: w, (closed.cons letter).cons rfl, rfl, other⟩
      · have plain : ∀ c ∈ cs.head?, c.isDigit = false ∧ isAfterZero c = false := by
          intro c mem
          constructor
          · by_contra digit
            exact leading ⟨c, mem, by simpa using digit⟩
          · by_contra base
            exact after ⟨c, mem, by simpa using base⟩
        rw [scanNumeral_zero plain] at h
        obtain ⟨w, closed, rfl, other⟩ := scanFraction_eq_some h
        refine ⟨'0' :: w, closed.cons rfl, rfl, fun rest ends => ?_⟩
        rw [List.cons_append, scanNumeral_zero, other rest ends]
        cases w with
        | nil => exact ends_afterZero ends.1
        | cons c w => exact plain
  · rw [scanNumeral_plain zero] at h
    obtain ⟨⟨count, behind⟩, run, fraction⟩ := Option.bind_eq_some_iff.1 h
    obtain ⟨stops, w, closed, rfl, digits⟩ := digitRun_eq_some decimal run
    obtain ⟨w', closed', rfl, other⟩ := scanFraction_eq_some fraction
    refine ⟨w ++ w', closed.append closed', by simp, fun rest ends => ?_⟩
    have behindStops : Stops Char.isDigit rest := endsNumeral_stops ends.1 fun c digit => .inl digit
    have run' := digits (w' ++ rest) (stops.append behindStops)
    rw [List.append_assoc, scanNumeral_plain, run', Option.bind_some, other rest ends]
    intro head
    rw [← List.append_assoc] at head zero
    generalize w ++ w' = whole at head zero
    cases whole with
    | nil => exact absurd (behindStops '0' head).1 (by decide)
    | cons c whole => exact zero head

/-! ## Texts that follow -/

theorem endsNumeral_head {rest rest' : List Char} (h : rest'.head? = rest.head?) :
    endsNumeral rest' = endsNumeral rest := by
  cases rest with
  | nil => rw [List.head?_eq_none_iff.1 h]
  | cons c rest =>
    obtain ⟨rest', rfl⟩ := List.head?_eq_some_iff.1 h
    rfl

theorem isNamePart_of_isDigit {c : Char} (h : c.isDigit = true) : isNamePart c = true := by
  have small : c.toNat < 128 := by
    simp only [Char.isDigit, Bool.and_eq_true, decide_eq_true_eq] at h
    exact Nat.lt_of_le_of_lt (show c.toNat ≤ '9'.toNat from h.2) (by decide)
  rw [isNamePart, if_pos small, Char.isAlphanum, h]
  simp

theorem Breaks.endsNumeral {rest : List Char} (h : Breaks rest) :
    Script.endsNumeral rest = true := by
  cases rest with
  | nil => rfl
  | cons c rest =>
    obtain ⟨part, backslash⟩ := h c rfl
    have start := h.not_isNameStart c rfl
    have digit : c.isDigit = false := by
      by_contra digit
      rw [Bool.not_eq_false] at digit
      exact absurd (isNamePart_of_isDigit digit) (by simp [part])
    simp [Script.endsNumeral, start, digit, backslash]

def Halts (rest : List Char) : Prop :=
  ∀ c ∈ rest.head?, isNameStart c = false ∧ c.isDigit = false

theorem halts_of_endsNumeral {rest : List Char} (h : endsNumeral rest = true) : Halts rest := by
  intro c mem
  obtain ⟨rest, rfl⟩ := List.head?_eq_some_iff.1 mem
  simp only [endsNumeral, Bool.not_eq_true', Bool.or_eq_false_iff] at h
  exact ⟨h.1.1, h.1.2⟩

theorem halts_of_parts {rest : List Char} (h : ∀ c ∈ rest.head?, isNamePart c = false) :
    Halts rest := by
  intro c mem
  have other := h c mem
  constructor
  · by_contra start
    rw [Bool.not_eq_false] at start
    exact absurd (isNamePart_of_isNameStart start) (by simp [other])
  · by_contra digit
    rw [Bool.not_eq_false] at digit
    exact absurd (isNamePart_of_isDigit digit) (by simp [other])

theorem Breaks.halts {rest : List Char} (h : Breaks rest) : Halts rest :=
  halts_of_parts fun c mem => (h c mem).1

theorem Halts.not_dollar {rest : List Char} (h : Halts rest) : rest.head? ≠ some '$' :=
  fun head => absurd (h '$' head).1 (by decide)

def Parts (rest rest' : List Char) : Prop := rest'.head? = rest.head? ∨ Breaks rest'

theorem Parts.endsNumeral {rest rest' : List Char} (h : Parts rest rest')
    (ends : endsNumeral rest = true) : Script.endsNumeral rest' = true := by
  rcases h with same | breaks
  · rw [endsNumeral_head same, ends]
  · exact breaks.endsNumeral

theorem Parts.breaks {rest rest' : List Char} (h : Parts rest rest') (breaks : Breaks rest) :
    Breaks rest' := by
  rcases h with same | breaks'
  · exact breaks.head same
  · exact breaks'

end BundlePrep.Script
