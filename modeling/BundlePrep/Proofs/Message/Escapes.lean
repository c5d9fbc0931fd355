import BundlePrep.Proofs.Message.Grammar
import Mathlib.Data.List.TakeWhile

/-!
# Escapes are derived

An escape that is read is one of the accepted grammar.
-/

set_option autoImplicit false

namespace BundlePrep.Message

open BundlePrep.Text

/-! ## Digits -/

theorem isSome_of_hexNumber? {digits : List Char} {code : Nat} (h : hexNumber? digits = some code) :
    ∀ c ∈ digits, (hexValue? c).isSome = true := by
  suffices all : ∀ start, (digits.foldlM (fun n c => (hexValue? c).map (16 * n + ·)) start).isSome →
      ∀ c ∈ digits, (hexValue? c).isSome = true from all 0 (by rw [hexNumber?] at h; simp [h])
  clear h
  induction digits with
  | nil => simp
  | cons c digits ih =>
    intro start some
    rw [List.foldlM_cons] at some
    cases value : hexValue? c with
    | none => simp [value] at some
    | some n =>
      simp only [value, Option.map_some, Option.bind_eq_bind, Option.bind_some] at some
      exact List.forall_mem_cons.2 ⟨by rw [value]; rfl, ih _ some⟩

theorem not_mem_of_hexNumber? {digits : List Char} {code : Nat}
    (h : hexNumber? digits = some code) : '\\' ∉ digits :=
  fun mem => absurd (isSome_of_hexNumber? h _ mem) (by decide)

namespace Grammar

/-! ## Codes -/

theorem digits_of_readHex {count n : Nat} {cs rest : List Char}
    (h : readHex count cs = some (n, rest)) :
    ∃ digits, cs = digits ++ rest ∧ digits.length = count ∧ hexNumber? digits = some n := by
  unfold readHex at h
  split at h
  · cases h
  · next enough =>
    obtain ⟨n', number, same⟩ := Option.map_eq_some_iff.1 h
    obtain ⟨rfl, rfl⟩ := Prod.mk.inj same
    refine ⟨cs.take count, (List.take_append_drop count cs).symm, ?_, number⟩
    rw [List.length_take] at enough ⊢
    omega

theorem code_of_readBraced {n : Nat} {cs rest : List Char} (h : readBraced cs = some (n, rest)) :
    ∃ digits, '{' :: cs = digits ++ rest ∧ Code accepted digits n := by
  simp only [readBraced] at h
  split at h
  next brace behind number eq found =>
    split at h
    · cases h
    next low =>
      obtain ⟨rfl, rfl⟩ := Prod.mk.inj (Option.some.inj h)
      simp only [Bool.or_eq_true, List.isEmpty_iff, decide_eq_true_eq, not_or, Nat.not_lt] at low
      have parts := List.takeWhile_append_dropWhile (p := (· ≠ '}')) (l := cs)
      have close : brace = '}' := by
        have head := List.head?_dropWhile_not (· ≠ '}') cs
        rw [eq] at head
        simpa using head
      rw [eq, close] at parts
      generalize cs.takeWhile (· ≠ '}') = digits at *
      refine ⟨'{' :: (digits ++ ['}']), by simp [← parts], ?_⟩
      have shape : bracedDigits digits = digits ∨ digits = '+' :: bracedDigits digits := by
        unfold bracedDigits
        split
        · exact .inr rfl
        · exact .inl rfl
      rcases shape with same | same
      · rw [same] at low found
        exact .braced low.1 found low.2
      · rw [same]
        exact .signed trivial low.1 found low.2
  · cases h

theorem code_of_readCode {n : Nat} {cs rest : List Char} (h : readCode cs = some (n, rest)) :
    ∃ digits, cs = digits ++ rest ∧ Code accepted digits n := by
  unfold readCode at h
  split at h
  · exact code_of_readBraced h
  · obtain ⟨digits, rfl, size, number⟩ := digits_of_readHex h
    exact ⟨digits, rfl, .four size number⟩

theorem Code.not_mem {r : Rules} {digits : List Char} {n : Nat} (h : Code r digits n) :
    '\\' ∉ digits := by
  cases h with
  | four _ number => exact not_mem_of_hexNumber? number
  | braced _ number | signed _ _ number => simp [not_mem_of_hexNumber? number]

theorem escape_of_readEscape {cs out rest : List Char} (h : readEscape cs = some (out, rest)) :
    ∃ e, cs = e ++ rest ∧ Escape accepted rest e out := by
  unfold readEscape at h
  split at h
  case h_1 => cases h
  case h_8 inner =>
    obtain ⟨rfl, rfl⟩ := Prod.mk.inj (Option.some.inj h)
    exact ⟨['\n'], rfl, .lineFeed⟩
  case h_9 inner =>
    obtain ⟨rfl, rfl⟩ := Prod.mk.inj (Option.some.inj h)
    exact ⟨['\r', '\n'], rfl, .carriageReturnLineFeed⟩
  case h_10 inner alone =>
    obtain ⟨rfl, rfl⟩ := Prod.mk.inj (Option.some.inj h)
    refine ⟨['\r'], rfl, .carriageReturn fun head => ?_⟩
    obtain ⟨more, rfl⟩ := List.head?_eq_some_iff.1 head
    exact alone more rfl
  case h_11 inner =>
    cases found : readHex 2 inner with
    | none => simp [found] at h
    | some r =>
      obtain ⟨n, behind⟩ := r
      obtain ⟨digits, rfl, size, number⟩ := digits_of_readHex found
      simp only [found, Option.bind_eq_bind, Option.bind_some] at h
      obtain ⟨rfl, rfl⟩ := Prod.mk.inj (Option.some.inj h)
      exact ⟨'x' :: digits, rfl, .byte size number⟩
  case h_12 inner =>
    cases found : readCode inner with
    | none => simp [found] at h
    | some r =>
      obtain ⟨n, behind⟩ := r
      obtain ⟨digits, rfl, code⟩ := code_of_readCode found
      simp only [found, Option.bind_eq_bind, Option.bind_some] at h
      unfold readSurrogates at h
      split at h
      next high =>
        split at h
        next inner =>
          cases found' : readCode inner with
          | none => simp [found'] at h
          | some r =>
            obtain ⟨low, behind⟩ := r
            obtain ⟨digits', rfl, code'⟩ := code_of_readCode found'
            simp only [found', Option.bind_eq_bind, Option.bind_some] at h
            split at h
            next second =>
              simp only [Option.pure_def, Option.bind_some, Option.some.injEq, Prod.mk.injEq] at h
              obtain ⟨rfl, rfl⟩ := h
              exact ⟨'u' :: (digits ++ '\\' :: 'u' :: digits'), by simp,
                .pair code code' high second⟩
            · cases h
        · cases h
      · split at h
        next valid =>
          obtain ⟨rfl, rfl⟩ := Prod.mk.inj (Option.some.inj h)
          exact ⟨'u' :: digits, rfl, .code code valid⟩
        · cases h
  case h_13 d inner =>
    split at h
    · cases h
    next digit =>
      obtain ⟨rfl, rfl⟩ := Prod.mk.inj (Option.some.inj h)
      exact ⟨['0'], rfl, .zero (by simpa using digit)⟩
  case h_14 =>
    obtain ⟨rfl, rfl⟩ := Prod.mk.inj (Option.some.inj h)
    exact ⟨['0'], rfl, .zero (by simp)⟩
  case h_15 c inner n r t b f v lineFeed _ carriageReturn x u _ _ =>
    split at h
    · cases h
    next digit =>
      obtain ⟨rfl, rfl⟩ := Prod.mk.inj (Option.some.inj h)
      refine ⟨[c], rfl, .other ?_ (by simpa using digit) trivial⟩
      simp_all
  all_goals
    obtain ⟨rfl, rfl⟩ := Prod.mk.inj (Option.some.inj h)
    exact ⟨[_], rfl, .letter (by decide)⟩

theorem Escape.shorten {r : Rules} {cs more e out : List Char} (h : Escape r (cs ++ more) e out) :
    Escape r cs e out := by
  have head {c : Char} (own : cs.head? = some c) : (cs ++ more).head? = some c := by
    rw [List.head?_append, own]
    rfl
  cases h with
  | letter mem => exact .letter mem
  | zero alone => exact .zero fun d mem => alone d (head mem)
  | lineFeed => exact .lineFeed
  | carriageReturn alone => exact .carriageReturn fun own => alone (head own)
  | carriageReturnLineFeed => exact .carriageReturnLineFeed
  | byte size number => exact .byte size number
  | code code valid => exact .code code valid
  | pair first second high low => exact .pair first second high low
  | other plain digit allowed => exact .other plain digit allowed

end Grammar

end BundlePrep.Message
