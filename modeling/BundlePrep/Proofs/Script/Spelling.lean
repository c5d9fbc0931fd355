import BundlePrep.Proofs.Script.Quoting

/-!
# How names are spelled

A name stands in a script as a word or as a quoted text, where escapes may stand for some of its
characters. Without a backslash in its spelling, a name is spelled by its own characters.
-/

set_option autoImplicit false

namespace BundlePrep.Script

open BundlePrep.Text

def Token.Names (token : Token) (name : String) : Prop :=
  (∃ escaped, token = .word name escaped) ∨ token = .text (some name)

/-- A token that is read somewhere in a text spells a name. -/
structure Spells (text spelling : List Char) (name : String) : Prop where
  read : ∃ rest pos lexeme, spelling ++ rest <:+ text ∧ lexeme? (spelling ++ rest) pos = some lexeme ∧
    lexeme.rest = rest ∧ lexeme.token.Names name

/-! ## Words -/

/-- A word without escapes is made of the characters that are read, and none of these is a number
sign. -/
theorem scanWord_text {braced : Braced} {acc cs : List Char} {pos : Nat} {escaped : Bool}
    {word : Word} (h : scanWord braced acc cs pos escaped = some word) :
    ∃ w, cs = w ++ word.rest ∧ '#' ∉ w ∧
      (braced = .outside → '\\' ∉ w → word.text = acc.reverse ++ w) := by
  have no_hex {value : Nat} : hexValue? '#' ≠ some value := by
    rw [show hexValue? '#' = none by decide]
    simp
  fun_induction scanWord braced acc cs pos escaped with
  | case1 acc cs pos escaped ih =>
    obtain ⟨w, rfl, unmarked, -⟩ := ih h
    exact ⟨'\\' :: 'u' :: '{' :: w, rfl, by simpa using unmarked,
      fun _ plain => absurd (List.mem_cons_self ..) plain⟩
  | case2 acc p q r s cs pos escaped unbraced ih =>
    simp only [Option.bind_eq_bind, Option.bind_eq_some_iff] at h
    obtain ⟨code, hex, c, char, h⟩ := h
    obtain ⟨w, rfl, unmarked, -⟩ := ih c h
    refine ⟨'\\' :: 'u' :: p :: q :: r :: s :: w, rfl, ?_,
      fun _ plain => absurd (List.mem_cons_self ..) plain⟩
    simp only [hexNumber?, List.foldlM_cons, Option.bind_eq_bind, Option.bind_eq_some_iff,
      Option.map_eq_some_iff] at hex
    obtain ⟨-, ⟨_, hp, -⟩, -, ⟨_, hq, -⟩, -, ⟨_, hr, -⟩, -, ⟨_, hs, -⟩, -⟩ := hex
    simp only [List.mem_cons, not_or]
    refine ⟨by decide, by decide, ?_, ?_, ?_, ?_, unmarked⟩
    all_goals
      rintro rfl
      exact no_hex ‹_›
  | case3 => cases h
  | case4 acc c cs pos escaped braced hex backslash part ih =>
    obtain ⟨w, rfl, unmarked, letters⟩ := ih h
    refine ⟨c :: w, rfl, ?_, fun outside plain => ?_⟩
    · rintro (_ | ⟨_, mem⟩)
      · split at part
        · exact absurd part (by decide)
        · exact absurd part (by decide)
      · exact unmarked mem
    · rw [letters outside fun mem => plain (List.mem_cons_of_mem c mem)]
      simp
  | case5 acc c cs pos escaped braced hex backslash part =>
    obtain rfl := Option.some.inj h
    exact ⟨[], rfl, by simp, by simp⟩
  | case6 acc pos escaped =>
    obtain rfl := Option.some.inj h
    exact ⟨[], rfl, by simp, by simp⟩
  | case7 value acc cs pos escaped ih =>
    simp only [Option.bind_eq_bind, Option.bind_eq_some_iff] at h
    obtain ⟨c, char, h⟩ := h
    obtain ⟨w, rfl, unmarked, -⟩ := ih c h
    exact ⟨'}' :: w, rfl, by simpa using unmarked, fun outside => by cases outside⟩
  | case8 acc c cs pos escaped ih =>
    simp only [Option.bind_eq_bind, Option.bind_eq_some_iff] at h
    obtain ⟨value, hex, h⟩ := h
    obtain ⟨w, rfl, unmarked, -⟩ := ih value h
    refine ⟨c :: w, rfl, ?_, fun outside => by cases outside⟩
    rintro (_ | ⟨_, mem⟩)
    · exact no_hex hex
    · exact unmarked mem
  | case9 value acc c cs pos escaped digit ih =>
    simp only [Option.bind_eq_bind, Option.bind_eq_some_iff] at h
    obtain ⟨last, hex, h⟩ := h
    split at h
    next small =>
      obtain ⟨w, rfl, unmarked, -⟩ := ih last h
      refine ⟨c :: w, rfl, ?_, fun outside => by cases outside⟩
      rintro (_ | ⟨_, mem⟩)
      · exact no_hex hex
      · exact unmarked mem
    next => cases h
  | case10 => cases h

theorem wordLexeme_text {wrap : String → Bool → Token} {cs : List Char} {pos : Nat}
    {lexeme : Lexeme} (h : wordLexeme wrap cs pos = some lexeme) :
    ∃ w name escaped, cs = w ++ lexeme.rest ∧ lexeme.token = wrap (String.ofList name) escaped ∧
      '#' ∉ w ∧ ('\\' ∉ w → name = w) := by
  simp only [wordLexeme, Option.bind_eq_bind, Option.bind_eq_some_iff] at h
  obtain ⟨word, found, h⟩ := h
  obtain ⟨w, rfl, unmarked, letters⟩ := scanWord_text found
  split at h
  · cases h
  · obtain rfl := Option.some.inj h
    exact ⟨w, word.text, word.escaped, rfl, rfl, unmarked, letters rfl⟩

/-! ## Quoted texts -/

theorem scanQuoted_text {quote : Char} {acc w written rest : List Char} (plain : '\\' ∉ w)
    (hq : quote ≠ '\\') (h : scanQuoted quote acc (w ++ quote :: rest) = some (written, rest)) :
    written = acc.reverse ++ w := by
  induction w generalizing acc with
  | nil =>
    rw [List.nil_append, scanQuoted_plain hq, if_pos (by simp)] at h
    rw [List.append_nil, (Prod.mk.inj (Option.some.inj h)).1]
  | cons c w ih =>
    have backslash : c ≠ '\\' := by
      rintro rfl
      exact plain (List.mem_cons_self ..)
    rw [List.cons_append, scanQuoted_plain backslash] at h
    split at h
    · have length := congrArg List.length (Prod.mk.inj (Option.some.inj h)).2
      simp at length
      omega
    · split at h
      · cases h
      · rw [ih (fun mem => plain (List.mem_cons_of_mem c mem)) h]
        simp

theorem textLexeme_text {quote : Char} (hq : quote ≠ '\\') {cs : List Char} {pos : Nat}
    {lexeme : Lexeme} (h : textLexeme quote cs pos = some lexeme) :
    ∃ w value, cs = w ++ quote :: lexeme.rest ∧ lexeme.token = .text value ∧
      ('\\' ∉ w → value = some (String.ofList w)) := by
  simp only [textLexeme, Option.bind_eq_bind, Option.bind_eq_some_iff] at h
  obtain ⟨⟨written, behind⟩, found, ⟨codes, octal⟩, decoded, same⟩ := h
  obtain ⟨w, rfl, -⟩ := scanQuoted_eq_some hq found
  obtain rfl := Option.some.inj same
  refine ⟨w, _, rfl, rfl, fun plain => ?_⟩
  obtain rfl : written = w := scanQuoted_text plain hq found
  have value := decodeQuoted_of_plain (fun c mem same => plain (same ▸ mem))
    (Nat.le_refl written.length)
  obtain ⟨rfl, -⟩ := Prod.mk.inj (Option.some.inj (decoded.symm.trans value))
  rw [joinSurrogates_of_plain, Option.map_some]

/-! ## Tokens -/

theorem not_names_numberLexeme {cs : List Char} {pos : Nat} {lexeme : Lexeme} {name : String}
    (h : numberLexeme cs pos = some lexeme) : ¬lexeme.token.Names name := by
  simp only [numberLexeme, Option.bind_eq_bind, Option.bind_eq_some_iff] at h
  obtain ⟨numeral, -, h⟩ := h
  split at h
  · obtain rfl := Option.some.inj h
    simp [Token.Names]
  · cases h

theorem not_names_markLexeme {cs : List Char} {pos : Nat} {lexeme : Lexeme} {name : String}
    (h : markLexeme cs pos = some lexeme) : ¬lexeme.token.Names name := by
  simp only [markLexeme, Option.bind_eq_bind, Option.bind_eq_some_iff] at h
  obtain ⟨⟨m, length, rest⟩, -, same⟩ := h
  obtain rfl := Option.some.inj same
  simp [Token.Names]

theorem not_names_privateWord {cs : List Char} {pos : Nat} {lexeme : Lexeme} {name : String}
    (h : wordLexeme (fun text _ => .privateWord text) cs pos = some lexeme) :
    ¬lexeme.token.Names name := by
  obtain ⟨_, _, _, -, same, -⟩ := wordLexeme_text h
  simp [Token.Names, same]

theorem names_cases {cs : List Char} {pos : Nat} {lexeme : Lexeme} {name : String}
    (h : lexeme? cs pos = some lexeme) (names : lexeme.token.Names name) :
    wordLexeme .word cs pos = some lexeme ∨
      ∃ quote r, quote ≠ '\\' ∧ cs = quote :: r ∧ textLexeme quote r pos = some lexeme := by
  unfold lexeme? at h
  split at h
  · obtain rfl := Option.some.inj h
    simp [Token.Names] at names
  · exact absurd names (not_names_privateWord h)
  · exact .inr ⟨_, _, by decide, rfl, h⟩
  · exact .inr ⟨_, _, by decide, rfl, h⟩
  · split at h
    · exact absurd names (not_names_numberLexeme h)
    · exact absurd names (not_names_markLexeme h)
  · exact .inl h
  · split at h
    · exact absurd names (not_names_numberLexeme h)
    · split at h
      · exact .inl h
      · exact absurd names (not_names_markLexeme h)

theorem Spells.inside {text spelling : List Char} {name : String} (h : Spells text spelling name)
    (plain : '\\' ∉ spelling) : name.toList <:+: text := by
  obtain ⟨rest, pos, lexeme, suffix, found, rfl, names⟩ := h.read
  refine List.IsInfix.trans ?_ suffix.isInfix
  rcases names_cases found names with word | ⟨quote, r, hq, front, quoted⟩
  · obtain ⟨w, letters, escaped, whole, token, -, same⟩ := wordLexeme_text word
    obtain rfl := List.append_cancel_right whole
    obtain rfl := same plain
    rw [token] at names
    obtain rfl : name = String.ofList letters := by
      rcases names with ⟨_, same⟩ | same
      · exact (Token.word.inj same).1.symm
      · cases same
    rw [String.toList_ofList]
    exact (List.prefix_append ..).isInfix
  · obtain ⟨w, value, rfl, token, same⟩ := textLexeme_text hq quoted
    obtain rfl : spelling = quote :: w ++ [quote] :=
      List.append_cancel_right (front.trans (by simp))
    have inner : value = some (String.ofList w) := same fun mem => plain (by simp [mem])
    rw [token, inner] at names
    obtain rfl : name = String.ofList w := by
      rcases names with ⟨_, same⟩ | same
      · cases same
      · exact (Option.some.inj (Token.text.inj same)).symm
    rw [String.toList_ofList]
    exact ⟨[quote], quote :: lexeme.rest, by simp⟩

end BundlePrep.Script
