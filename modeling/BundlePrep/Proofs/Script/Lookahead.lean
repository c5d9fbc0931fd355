import BundlePrep.Proofs.Text.Characters
import BundlePrep.Script.Token
import Mathlib.Data.List.Basic

/-!
# What a reader sees of the text behind

A reader of tokens looks at a few characters behind the item that it takes. It takes the same item
where another text follows, if that one begins with the same signs that go on marks, for as far as any
reader looks. Texts look alike if they agree up to a character that goes on none of the marks.
-/

set_option autoImplicit false

namespace BundlePrep.Script

/-! ## Line ends -/

def isNewline (c : Char) : Bool := c == '\n' || c == '\r'

def Closed (text : List Char) : Prop := ∀ c ∈ text.getLast?, isNewline c = false

theorem closed_nil : Closed [] := nofun

theorem Closed.append {v w : List Char} (hv : Closed v) (hw : Closed w) : Closed (v ++ w) := by
  intro c mem
  rw [List.getLast?_append] at mem
  cases last : w.getLast? with
  | none => exact hv c (by simpa [last] using mem)
  | some d => exact hw c (by simpa [last] using mem)

theorem Closed.cons {c : Char} {w : List Char} (h : isNewline c = false) (hw : Closed w) :
    Closed (c :: w) :=
  Closed.append (v := [c]) (by intro d mem; obtain rfl : c = d := (by simpa using mem); exact h) hw

theorem closed_of_all {w : List Char} (h : ∀ c ∈ w, isNewline c = false) : Closed w :=
  fun c mem => h c (List.mem_of_getLast? mem)

theorem closed_last {c : Char} (h : isNewline c = false) (w : List Char) : Closed (w ++ [c]) := by
  intro d mem
  obtain rfl : c = d := by simpa using mem
  exact h

/-! ## Texts that look alike -/

def isApart (c : Char) : Bool :=
  c == '\n' || c == '\r' || c == '"' || c == '\x27' || c == '$' || c == '#' || c == '('

def view : Nat → List Char → List Char
  | 0, _ => []
  | _, [] => []
  | n + 1, c :: cs => if isApart c then [] else c :: view n cs

def Alike (cs ds : List Char) : Prop := view 4 cs = view 4 ds

theorem Alike.refl (cs : List Char) : Alike cs cs := rfl

theorem take_view (n : Nat) (cs : List Char) : (view (n + 1) cs).take n = view n cs := by
  induction n generalizing cs with
  | zero => cases cs <;> rfl
  | succ n ih =>
    cases cs with
    | nil => rfl
    | cons c cs =>
      rw [view, view]
      split
      · rfl
      · rw [List.take_succ_cons, ih]

theorem Alike.append (p : List Char) {cs ds : List Char} (h : Alike cs ds) :
    Alike (p ++ cs) (p ++ ds) := by
  induction p with
  | nil => exact h
  | cons c p ih =>
    have further : view 3 (p ++ cs) = view 3 (p ++ ds) := by
      rw [← take_view, ih, take_view]
    rw [Alike, List.cons_append, List.cons_append, view, view, further]

theorem alike_of_apart {cs ds : List Char} (hc : ∀ c ∈ cs.head?, isApart c = true)
    (hd : ∀ d ∈ ds.head?, isApart d = true) : Alike cs ds := by
  have empty {es : List Char} (h : ∀ e ∈ es.head?, isApart e = true) : view 4 es = [] := by
    cases es with
    | nil => rfl
    | cons e es => rw [view, if_pos (h e rfl)]
  rw [Alike, empty hc, empty hd]

theorem Alike.head {cs ds : List Char} (h : Alike cs ds) :
    cs.head? = ds.head? ∨
      (∀ c ∈ cs.head?, isApart c = true) ∧ ∀ d ∈ ds.head?, isApart d = true := by
  have shape (es : List Char) : (∀ e ∈ es.head?, isApart e = true) ∧ view 4 es = [] ∨
      es.head? = (view 4 es).head? ∧ view 4 es ≠ [] := by
    cases es with
    | nil => exact .inl ⟨by simp, rfl⟩
    | cons e es =>
      by_cases apart : isApart e = true
      · exact .inl ⟨by simpa using apart, by rw [view, if_pos apart]⟩
      · rw [view, if_neg apart]
        exact .inr ⟨rfl, by simp⟩
  rcases shape cs with ⟨hc, ec⟩ | ⟨hc, ec⟩
  · rcases shape ds with ⟨hd, -⟩ | ⟨-, ed⟩
    · exact .inr ⟨hc, hd⟩
    · exact absurd (h.symm.trans ec) ed
  · rcases shape ds with ⟨-, ed⟩ | ⟨hd, -⟩
    · exact absurd (h.trans ed) ec
    · exact .inl (by rw [hc, hd, h])

theorem view_prefix {n : Nat} {p cs ds : List Char} (h : view n cs = view n (p ++ ds))
    (short : p.length ≤ n) (plain : ∀ c ∈ p, isApart c = false) : ∃ es, cs = p ++ es := by
  induction p generalizing n cs with
  | nil => exact ⟨cs, rfl⟩
  | cons c p ih =>
    cases n with
    | zero => simp at short
    | succ n =>
      have own := plain c (by simp)
      rw [List.cons_append, view, own] at h
      cases cs with
      | nil => simp [view] at h
      | cons d cs =>
        rw [view] at h
        split at h
        · cases h
        · obtain ⟨rfl, rest⟩ := List.cons.inj h
          obtain ⟨es, rfl⟩ := ih rest (by simpa using short) fun e mem => plain e (by simp [mem])
          exact ⟨es, rfl⟩

/-- Of two texts that look alike both begin with a short text in which no character is apart, or
neither does. -/
theorem Alike.starts {p cs ds : List Char} (h : Alike cs (p ++ ds)) (short : p.length ≤ 4)
    (plain : ∀ c ∈ p, isApart c = false) : ∃ es, cs = p ++ es :=
  view_prefix h short plain

theorem Alike.symm {cs ds : List Char} (h : Alike cs ds) : Alike ds cs := Eq.symm h

theorem isApart_of_isDigit {c : Char} (h : c.isDigit = true) : isApart c = false := by
  by_contra apart
  simp only [isApart, Bool.not_eq_false, Bool.or_eq_true, beq_iff_eq] at apart
  rcases apart with (((((rfl | rfl) | rfl) | rfl) | rfl) | rfl) | rfl <;> cases h

def NoDigit (rest : List Char) : Prop := ∀ d ∈ rest.head?, d.isDigit = false

instance (rest : List Char) : Decidable (NoDigit rest) :=
  inferInstanceAs (Decidable (∀ d ∈ rest.head?, d.isDigit = false))

theorem Alike.noDigit {cs ds : List Char} (h : Alike cs ds) (hc : NoDigit cs) : NoDigit ds := by
  intro d mem
  rcases h.head with same | ⟨-, apart⟩
  · exact hc d (same ▸ mem)
  · by_contra digit
    rw [Bool.not_eq_false] at digit
    exact absurd (apart d mem) (by simp [isApart_of_isDigit digit])

/-! ## Signs that go on marks -/

def isGoing (c : Char) : Bool := ".?=<>!-+*/&|\x7b".toList.contains c

def Pointed (cs : List Char) : Prop := ∃ d ds, cs = '.' :: d :: ds ∧ d.isDigit = true

structure Near (cs ds : List Char) : Prop where
  starts : ∀ p : List Char, p.length ≤ 4 → (∀ c ∈ p, isGoing c = true) → (p <+: cs ↔ p <+: ds)
  pointed : Pointed cs → Pointed ds

theorem Near.refl (cs : List Char) : Near cs cs := ⟨fun _ _ _ => .rfl, id⟩

theorem Near.begins {cs ds : List Char} (h : Near cs ds) {p es : List Char} (same : ds = p ++ es)
    (short : p.length ≤ 4) (going : ∀ c ∈ p, isGoing c = true) : ∃ es, cs = p ++ es := by
  obtain ⟨es, whole⟩ := (h.starts p short going).2 ⟨es, same.symm⟩
  exact ⟨es, whole.symm⟩

theorem Near.head {cs ds : List Char} (h : Near cs ds) {c : Char} (going : isGoing c = true) :
    cs.head? = some c ↔ ds.head? = some c := by
  have head (es : List Char) : [c] <+: es ↔ es.head? = some c := by
    cases es <;> simp [List.cons_prefix_cons, eq_comm]
  rw [← head, ← head]
  exact h.starts [c] (Nat.le_add_left 1 3) (by simpa using going)

theorem near_of_heads {cs ds : List Char} (hc : ∀ c ∈ cs.head?, isGoing c = false)
    (hd : ∀ d ∈ ds.head?, isGoing d = false) : Near cs ds := by
  have none {es p : List Char} (he : ∀ e ∈ es.head?, isGoing e = false)
      (going : ∀ c ∈ p, isGoing c = true) (begins : p <+: es) : p = [] := by
    obtain ⟨more, rfl⟩ := begins
    cases p with
    | nil => rfl
    | cons c p => exact absurd (going c (by simp)) (by simp [he c rfl])
  refine ⟨fun p _ going => ⟨fun begins => ?_, fun begins => ?_⟩, ?_⟩
  · exact none hc going begins ▸ List.nil_prefix
  · exact none hd going begins ▸ List.nil_prefix
  · rintro ⟨d, more, rfl, -⟩
    exact absurd (hc '.' rfl) (by decide)

/-- Texts stay near each other behind what stands in front of both, unless that is a point in front
of a digit. -/
theorem Near.append {p cs ds : List Char} (h : Near cs ds) (point : p = ['.'] → NoDigit cs) :
    Near (p ++ cs) (p ++ ds) := by
  constructor
  · clear point
    induction p with
    | nil => exact h.starts
    | cons c p ih =>
      intro q short going
      cases q with
      | nil => simp
      | cons d q =>
        rw [List.length_cons] at short
        have more := ih q (by omega) fun e mem => going e (List.mem_cons_of_mem d mem)
        rw [List.cons_append, List.cons_append, List.cons_prefix_cons, List.cons_prefix_cons, more]
  · rintro ⟨d, es, whole, digit⟩
    rcases List.append_eq_cons_iff.1 whole with ⟨rfl, rfl⟩ | ⟨p, rfl, behind⟩
    · exact h.pointed ⟨d, es, rfl, digit⟩
    · cases p with
      | nil =>
        have none := point rfl d (by rw [List.nil_append] at behind; rw [← behind]; rfl)
        rw [digit] at none
        cases none
      | cons e p =>
        obtain ⟨rfl, -⟩ := List.cons.inj behind
        exact ⟨d, p ++ ds, rfl, digit⟩

theorem isApart_of_isGoing {c : Char} (h : isGoing c = true) : isApart c = false := by
  by_contra apart
  simp only [isApart, Bool.not_eq_false, Bool.or_eq_true, beq_iff_eq] at apart
  rcases apart with (((((rfl | rfl) | rfl) | rfl) | rfl) | rfl) | rfl <;> cases h

theorem Alike.near {cs ds : List Char} (h : Alike cs ds) : Near cs ds := by
  have starts {cs ds : List Char} (h : Alike cs ds) {p : List Char} (short : p.length ≤ 4)
      (plain : ∀ c ∈ p, isApart c = false) (begins : p <+: ds) : p <+: cs := by
    obtain ⟨es, rfl⟩ := begins
    obtain ⟨es', rfl⟩ := h.starts short plain
    exact ⟨es', rfl⟩
  refine ⟨fun p short going => ?_, ?_⟩
  · have plain (c : Char) (mem : c ∈ p) := isApart_of_isGoing (going c mem)
    exact ⟨starts h.symm short plain, starts h short plain⟩
  · rintro ⟨d, es, rfl, digit⟩
    have plain : ∀ c ∈ ['.', d], isApart c = false := by
      intro c mem
      rcases List.mem_pair.1 mem with rfl | rfl
      · decide
      · exact isApart_of_isDigit digit
    obtain ⟨es', rfl⟩ := @Alike.starts ['.', d] _ es h.symm (Nat.le_add_right 2 2) plain
    exact ⟨d, es', rfl, digit⟩

/-! ## Marks -/

theorem scan_optionalDot {rest : List Char} (h : NoDigit rest) :
    Mark.scan ('?' :: '.' :: rest) = some (.optionalDot, 2, rest) := by
  cases rest with
  | nil => rfl
  | cons d rest =>
    rw [Mark.scan, h d rfl]
    rfl

theorem scan_near {cs rest : List Char} {m : Mark} {n : Nat}
    (h : Mark.scan cs = some (m, n, rest)) :
    0 < n ∧ Closed (cs.take n) ∧ cs = cs.take n ++ rest ∧
      (cs.take n = ['?', '.'] → NoDigit rest) ∧
      ∀ rest', Near rest rest' → (cs.take n = ['?', '.'] → NoDigit rest') →
        Mark.scan (cs.take n ++ rest') = some (m, n, rest') := by
  fun_cases Mark.scan cs
  all_goals rw [Mark.scan] at h
  all_goals try assumption
  -- Marks that no character could go on.
  all_goals try
    obtain ⟨rfl, rfl, rfl⟩ := h
    exact ⟨by decide, closed_of_all (by simp [isNewline]), rfl, by simp, fun _ _ _ => rfl⟩
  case case19 d r digit =>
    rw [if_pos digit] at h
    obtain ⟨rfl, rfl, rfl⟩ := h
    refine ⟨by decide, closed_of_all (by simp [isNewline]), rfl, by simp, fun rest' near _ => ?_⟩
    obtain ⟨d', s, rfl, digit'⟩ := near.pointed ⟨d, r, rfl, digit⟩
    show Mark.scan ('?' :: '.' :: d' :: s) = _
    rw [Mark.scan, if_pos digit']
  case case20 d r other =>
    rw [if_neg other] at h
    obtain ⟨rfl, rfl, rfl⟩ := h
    refine ⟨by decide, closed_of_all (by simp [isNewline]), rfl, fun _ => ?_, fun rest' _ plain => ?_⟩
    · intro e mem
      obtain rfl : d = e := by simpa using mem
      simpa using other
    · exact scan_optionalDot (plain rfl)
  case case21 =>
    obtain ⟨rfl, rfl, rfl⟩ := h
    refine ⟨by decide, closed_of_all (by simp [isNewline]), rfl, fun _ => by simp [NoDigit], ?_⟩
    exact fun rest' _ plain => scan_optionalDot (plain rfl)
  case case22 question coalesce pair alone =>
    obtain ⟨rfl, rfl, rfl⟩ := h
    refine ⟨by decide, closed_of_all (by simp [isNewline]), rfl, by simp, fun rest' near _ => ?_⟩
    have noQuestion (r : List Char) : rest' ≠ '?' :: r := by
      rintro rfl
      obtain ⟨s, rfl⟩ := near.begins (p := ['?']) rfl (by decide) (by decide)
      exact coalesce s rfl
    have noDot (r : List Char) : rest' ≠ '.' :: r := by
      rintro rfl
      obtain ⟨s, rfl⟩ := near.begins (p := ['.']) rfl (by decide) (by decide)
      cases s with
      | nil => exact alone rfl
      | cons d s => exact pair d s rfl
    show Mark.scan ('?' :: rest') = _
    rw [Mark.scan]
    · exact fun r => noQuestion ('=' :: r)
    · exact noQuestion
    · exact fun d r => noDot (d :: r)
    · exact noDot []
  all_goals try (cases h; done)
  -- Marks that go on with what stands in the text behind, and so in one that begins like it.
  all_goals
    obtain ⟨rfl, rfl, rfl⟩ := h
    refine ⟨by decide, closed_of_all (by simp [isNewline]), rfl, by simp, fun rest' near _ => ?_⟩
    simp only [List.take_succ_cons, List.take_zero, List.cons_append, List.nil_append]
    rw [Mark.scan]
    all_goals
      rintro r' rfl
      first
        | obtain ⟨s, rfl⟩ := near.begins (p := [_, _]) rfl (by decide) (by decide)
          simp at *
        | obtain ⟨s, rfl⟩ := near.begins (p := [_]) rfl (by decide) (by decide)
          simp at *

end BundlePrep.Script
