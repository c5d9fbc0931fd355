import BundlePrep.Glob.Pattern

/-!
# Patterns that are read

A text without wildcards and brackets is the pattern that stands for itself, and in front of a slash
it does not matter to what is read behind it. A pattern without wildcards and sets stands for the
text from which it was read.
-/

set_option autoImplicit false

namespace BundlePrep.Glob

/-- Characters that stand for themselves in a pattern. -/
def IsPlainChar (c : Char) : Prop := c ≠ '*' ∧ c ≠ '?' ∧ c ≠ '['

instance (c : Char) : Decidable (IsPlainChar c) := inferInstanceAs (Decidable (_ ∧ _))

theorem readTokens_plain {c : Char} (plain : IsPlainChar c) (position : Nat) (before : Option Char)
    (tokens : List Token) (cs : List Char) :
    readTokens position before tokens (c :: cs) =
      readTokens (position + 1) (some c) (.char c :: tokens) cs := by
  obtain ⟨star, question, bracket⟩ := plain
  rw [readTokens.eq_def]
  split
  next none => cases none
  next same => exact absurd (List.cons.inj same).1 question
  next same => exact absurd (List.cons.inj same).1 star
  next same => exact absurd (List.cons.inj same).1 star
  next same => exact absurd (List.cons.inj same).1 star
  next same => exact absurd (List.cons.inj same).1 bracket
  next same => exact absurd (List.cons.inj same).1 bracket
  next same =>
    obtain ⟨rfl, rfl⟩ := List.cons.inj same
    rfl

theorem readTokens_append {front : List Char} (plain : ∀ c ∈ front, IsPlainChar c) (position : Nat)
    (before : Option Char) (tokens : List Token) (cs : List Char) :
    ∃ position', readTokens position before tokens (front ++ cs) =
      readTokens position' (front.getLast?.or before) ((front.map .char).reverse ++ tokens) cs := by
  induction front generalizing position before tokens with
  | nil => exact ⟨position, rfl⟩
  | cons c front ih =>
    obtain ⟨own, others⟩ := List.forall_mem_cons.1 plain
    obtain ⟨position', same⟩ := ih others (position + 1) (some c) (.char c :: tokens)
    refine ⟨position', ?_⟩
    rw [List.cons_append, readTokens_plain own, same]
    cases front with
    | nil => rfl
    | cons d front => simp [List.getLast?_cons]

theorem parse_plain {text : String} (plain : ∀ c ∈ text.toList, IsPlainChar c) :
    Pattern.parse text = .ok ⟨text.toList.map .char⟩ := by
  obtain ⟨position, same⟩ := readTokens_append plain 0 none [] []
  rw [List.append_nil] at same
  rw [Pattern.parse, same, readTokens]
  simp [Except.map]

/-! ## What stands in front of a slash -/

theorem readSegments_congr {start start' : Nat} {before before' : Option Char}
    (same : before.any (· ≠ '/') = before'.any (· ≠ '/')) (cs : List Char) :
    (readSegments start before cs).toOption = (readSegments start' before' cs).toOption := by
  unfold readSegments
  rw [same]
  split
  · rfl
  · split <;> rfl

theorem isOk_readTokens {position position' : Nat} {before before' : Option Char}
    {tokens tokens' : List Token} (same : before.any (· ≠ '/') = before'.any (· ≠ '/'))
    (cs : List Char) : (readTokens position before tokens cs).isOk =
      (readTokens position' before' tokens' cs).isOk := by
  fun_induction readTokens position before tokens cs generalizing position' before' tokens' with
  | case1 position before tokens =>
    rw [readTokens]
    rfl
  | case2 position before tokens cs ih =>
    rw [readTokens]
    exact ih rfl
  | case3 position before tokens cs =>
    rw [readTokens]
    rfl
  | case4 position before tokens cs triple e read =>
    have also := @readSegments_congr position position' before before' same cs
    rw [readTokens.eq_4 _ _ _ _ triple]
    rw [read] at also
    cases read' : readSegments position' before' cs with
    | error e' => rfl
    | ok rest => rw [read'] at also; cases also
  | case5 position before tokens cs triple rest read length =>
    rename_i ih
    have also := @readSegments_congr position position' before before' same cs
    rw [readTokens.eq_4 _ _ _ _ triple]
    rw [read] at also
    cases read' : readSegments position' before' cs with
    | error e' => rw [read'] at also; cases also
    | ok rest' =>
      rw [read'] at also
      obtain rfl := Option.some.inj also
      exact ih rfl
  | case6 position before tokens cs double triple ih =>
    rw [readTokens.eq_5 _ _ _ _ double triple]
    exact ih rfl
  | case7 position before tokens cs read =>
    rw [readTokens, read]
    rfl
  | case8 position before tokens cs members rest read ih =>
    rw [readTokens, read]
    exact ih rfl
  | case9 position before tokens cs single read =>
    rw [readTokens.eq_7 _ _ _ _ single, read]
    rfl
  | case10 position before tokens cs single members rest read ih =>
    rw [readTokens.eq_7 _ _ _ _ single, read]
    exact ih rfl
  | case11 position before tokens c cs question double single star except bracket ih =>
    rw [readTokens_plain ⟨star, question, bracket⟩]
    exact ih rfl

theorem exists_addSegments (before : List Token) :
    ∃ more, addSegments before = .anySegments :: more := by
  unfold addSegments
  split
  next token more => exact ⟨token :: more, rfl⟩
  next => exact ⟨before, rfl⟩

theorem eq_of_readTokens {position : Nat} {before : Option Char} {tokens read : List Token}
    {cs : List Char} (h : readTokens position before tokens cs = .ok read)
    (plain : ∀ token ∈ read, ∃ c, token = .char c) : read = tokens.reverse ++ cs.map .char := by
  have without {token : Token} {tokens rest : List Token} (other : ∀ c, token ≠ .char c) :
      read ≠ (token :: tokens).reverse ++ rest := by
    rintro rfl
    obtain ⟨c, same⟩ := plain token (by simp)
    exact other c same
  fun_induction readTokens position before tokens cs with
  | case1 position before tokens =>
    rw [← Except.ok.inj h, List.map_nil, List.append_nil]
  | case2 position before tokens cs ih => exact absurd (ih h) (without nofun)
  | case3 position before tokens cs => cases h
  | case4 position before tokens cs triple e read' => cases h
  | case5 position before tokens cs triple rest read' length =>
    rename_i ih
    obtain ⟨more, same⟩ := exists_addSegments tokens
    rw [same] at ih h
    exact absurd (ih h) (without nofun)
  | case6 position before tokens cs double triple ih => exact absurd (ih h) (without nofun)
  | case7 position before tokens cs none => cases h
  | case8 position before tokens cs members rest found ih => exact absurd (ih h) (without nofun)
  | case9 position before tokens cs single none => cases h
  | case10 position before tokens cs single members rest found ih =>
    exact absurd (ih h) (without nofun)
  | case11 position before tokens c cs question double single star except bracket ih =>
    rw [ih h, List.reverse_cons, List.append_assoc]
    rfl

theorem eq_map_of_mapM {tokens : List Token} {cs : List Char}
    (h : tokens.mapM Token.char? = some cs) : tokens = cs.map .char := by
  induction tokens generalizing cs with
  | nil =>
    cases h
    rfl
  | cons token tokens ih =>
    simp only [List.mapM_cons, Option.bind_eq_bind, Option.bind_eq_some_iff, Option.pure_def,
      Option.some.injEq] at h
    obtain ⟨c, own, others, rest, rfl⟩ := h
    cases token <;> cases own
    rw [ih rest, List.map_cons]

theorem eq_of_literal? {p : Pattern} {text name : String} (read : Pattern.parse text = .ok p)
    (h : p.literal? = some name) : name = text ∧ p.tokens = text.toList.map .char := by
  obtain ⟨cs, chars, rfl⟩ := Option.map_eq_some_iff.1 h
  have tokens := eq_map_of_mapM chars
  cases found : readTokens 0 none [] text.toList with
  | error e =>
    rw [Pattern.parse, found] at read
    cases read
  | ok out =>
    rw [Pattern.parse, found] at read
    obtain rfl := Except.ok.inj read
    obtain rfl : out = cs.map .char := tokens
    have same := eq_of_readTokens found fun token mem => by
      obtain ⟨c, -, rfl⟩ := List.mem_map.1 mem
      exact ⟨c, rfl⟩
    have same : cs = text.toList := (List.map_inj_right fun _ _ => Token.char.inj).1 same
    rw [same]
    exact ⟨String.ofList_toList, rfl⟩

end BundlePrep.Glob
