import BundlePrep.Proofs.Message.Cut

/-!
# Line endings that come back keep what a call is

The line endings that are put in front of another one change neither where a text closes, nor which
character comes first behind white space, nor whether the mark of a placeholder stands in a text.
-/

set_option autoImplicit false

namespace BundlePrep.Message

open BundlePrep.Json BundlePrep.Script BundlePrep.Text

theorem isQuote_ne_newline {quote c : Char} (hq : isQuote quote = true) (h : c = '\n' ∨ c = '\r') :
    c ≠ quote := by
  rintro rfl
  rcases h with rfl | rfl <;> exact absurd hq (by decide)

theorem isQuote_not_blank {quote : Char} (h : isQuote quote = true) : isWhiteSpace quote = false := by
  rcases isQuote_cases h with rfl | rfl | rfl <;> decide

theorem newline_ne_backslash {c : Char} (h : c = '\n' ∨ c = '\r') : c ≠ '\\' := by
  rcases h with rfl | rfl <;> decide

theorem newline_isWhiteSpace {c : Char} (h : c = '\n' ∨ c = '\r') : isWhiteSpace c = true := by
  rcases h with rfl | rfl <;> decide

/-! ## Closing quotes -/

theorem closes_append_congr {quote : Char} {a x y : List Char} (plain : closes quote x = closes quote y)
    (escaped : closes quote ('\\' :: x) = closes quote ('\\' :: y)) :
    closes quote (a ++ x) = closes quote (a ++ y) := by
  fun_induction closes quote a with
  | case1 => exact plain
  | case2 c cs ih =>
    simp only [List.cons_append, closes]
    exact ih
  | case3 c cs alone ih =>
    by_cases backslash : c = '\\'
    · cases cs with
      | nil =>
        rw [backslash]
        exact escaped
      | cons d cs => exact (alone d cs backslash rfl).elim
    · rw [List.cons_append, List.cons_append, closes_plain backslash, closes_plain backslash, ih]

theorem closes_newlines {quote : Char} (hq : isQuote quote = true) {w : List Char}
    (h : ∀ c ∈ w, c = '\n' ∨ c = '\r') (cs : List Char) : closes quote (w ++ cs) = closes quote cs := by
  induction w with
  | nil => rfl
  | cons c w ih =>
    have newline := h c (by simp)
    have other : (c == quote) = false := by simpa using isQuote_ne_newline hq newline
    rw [List.cons_append, closes_plain (newline_ne_backslash newline), other, Bool.false_or,
      ih fun d mem => h d (by simp [mem])]

theorem closes_settle {quote : Char} (hq : isQuote quote = true) (debt : List LineEnding)
    (cs : List Char) : closes quote (settle debt cs).1 = closes quote cs := by
  rcases settle_cases debt cs with same | ⟨a, c, b, rfl, newline, settled⟩
  · rw [same]
  · have alone (b : List Char) : closes quote (c :: b) = closes quote b :=
      closes_newlines hq (w := [c]) (by simpa using newline) b
    rw [settled]
    refine closes_append_congr (closes_newlines hq (fun d => mem_endings_text) _) ?_
    have all : ∀ e ∈ debt.flatMap LineEnding.text, e = '\n' ∨ e = '\r' := fun e => mem_endings_text
    cases owed : debt.flatMap LineEnding.text with
    | nil => rfl
    | cons d w =>
      rw [owed] at all
      have more : ∀ e ∈ w, e = '\n' ∨ e = '\r' := fun e mem => all e (List.mem_cons_of_mem d mem)
      rw [List.cons_append, closes, closes, closes_newlines hq more, alone]

/-! ## Gaps -/

theorem dropWhile_head_append {a x y : List Char}
    (h : (x.dropWhile isWhiteSpace).head? = (y.dropWhile isWhiteSpace).head?) :
    ((a ++ x).dropWhile isWhiteSpace).head? = ((a ++ y).dropWhile isWhiteSpace).head? := by
  induction a with
  | nil => exact h
  | cons c a ih =>
    rw [List.cons_append, List.cons_append, List.dropWhile_cons, List.dropWhile_cons]
    split
    · exact ih
    · rfl

theorem Leads.settle {gap : List Char} (h : Leads gap) (debt : List LineEnding) :
    Leads (settle debt gap).1 := by
  rcases settle_cases debt gap with same | ⟨a, c, b, rfl, newline, settled⟩
  · rwa [same]
  · have blank : (debt.flatMap LineEnding.text).all isWhiteSpace = true := by
      rw [List.all_eq_true]
      exact fun d mem => newline_isWhiteSpace (mem_endings_text mem)
    rw [settled]
    intro d mem
    refine h d ?_
    rwa [dropWhile_head_append (y := c :: b) (by rw [dropWhile_of_all blank])] at mem

/-! ## Marks of placeholders -/

theorem Calm.append_newline {a b : List Char} {c : Char} (h : c = '\n' ∨ c = '\r') (ha : Calm a)
    (hb : Calm b) : Calm (a ++ c :: b) := by
  have outside : c ∉ marker := by rcases h with rfl | rfl <;> decide
  rintro ⟨s, t, whole⟩
  rw [List.append_assoc] at whole
  rcases List.append_eq_append_iff.1 whole with ⟨p, rfl, rest⟩ | ⟨p, rfl, rest⟩
  · rcases List.append_eq_append_iff.1 rest with ⟨q, rfl, -⟩ | ⟨q, mark, tail⟩
    · exact ha ⟨s, q, by rw [List.append_assoc]⟩
    · cases q with
      | nil =>
        rw [List.append_nil] at mark
        exact ha ⟨s, [], by rw [List.append_nil, mark]⟩
      | cons d q =>
        obtain ⟨rfl, -⟩ := List.cons.inj tail
        exact outside (by simp [mark])
  · cases p with
    | nil =>
      rw [List.nil_append] at rest
      have first : c = '%' := (List.cons.inj rest).1
      exact outside (by simp [first, marker])
    | cons d p =>
      obtain ⟨-, rfl⟩ := List.cons.inj rest
      exact hb ⟨p, t, List.append_assoc p marker t⟩

theorem calm_nil : Calm [] := by
  rintro ⟨s, t, whole⟩
  simp [marker] at whole

theorem Calm.newlines_append {w b : List Char} (h : ∀ c ∈ w, c = '\n' ∨ c = '\r') (hb : Calm b) :
    Calm (w ++ b) := by
  induction w with
  | nil => exact hb
  | cons c w ih =>
    exact Calm.append_newline (a := []) (h c (by simp)) calm_nil
      (ih fun d mem => h d (by simp [mem]))

theorem Calm.settle {text : List Char} (h : Calm text) (debt : List LineEnding) :
    Calm (settle debt text).1 := by
  rcases settle_cases debt text with same | ⟨a, c, b, rfl, newline, settled⟩
  · rwa [same]
  · have behind : Calm b := Calm.of_append_right (a := [c]) h.of_append_right
    have before : Calm a := h.of_append_left
    have all : ∀ e ∈ debt.flatMap LineEnding.text, e = '\n' ∨ e = '\r' := fun e => mem_endings_text
    rw [settled]
    cases owed : debt.flatMap LineEnding.text with
    | nil => exact h
    | cons d w =>
      rw [owed] at all
      refine Calm.append_newline (all d (by simp)) before ?_
      refine Calm.newlines_append (fun e mem => all e (by simp [mem])) ?_
      exact Calm.append_newline (a := []) newline calm_nil behind

theorem Calm.settleLast {text : List Char} (h : Calm text) (debt : List LineEnding) :
    Calm (settleLast debt text) := by
  have settled := h.settle debt
  have all : ∀ e ∈ (Text.settle debt text).2.flatMap LineEnding.text, e = '\n' ∨ e = '\r' :=
    fun e => mem_endings_text
  rw [Message.settleLast]
  cases owed : (Text.settle debt text).2.flatMap LineEnding.text with
  | nil => rwa [List.append_nil]
  | cons d w =>
    rw [owed] at all
    refine Calm.append_newline (all d (by simp)) settled ?_
    rw [← List.append_nil w]
    exact Calm.newlines_append (fun e mem => all e (by simp [mem])) calm_nil

end BundlePrep.Message
