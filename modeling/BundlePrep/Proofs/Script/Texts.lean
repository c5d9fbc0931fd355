import BundlePrep.Proofs.Script.Words
import BundlePrep.Script.MarkupGrammar

/-!
# Readers of texts, patterns and templates

What a closing mark ends is read in the same way whatever stands behind it; a pattern goes on with
its flags, and text in markup up to a character that stands behind it.
-/

set_option autoImplicit false

namespace BundlePrep.Script

open BundlePrep.Text

/-! ## Quoted texts, patterns and templates -/

theorem scanQuoted_plain {quote c : Char} (h : c ≠ '\\') (acc cs : List Char) :
    scanQuoted quote acc (c :: cs) =
      if c == quote then some (acc.reverse, cs)
      else if c == '\n' || c == '\r' || c == '\\' then none
      else scanQuoted quote (c :: acc) cs := by
  rw [scanQuoted]
  all_goals
    intros
    exact h ‹_›

theorem scanQuoted_eq_some {quote : Char} (hq : quote ≠ '\\') {acc cs written rest : List Char}
    (h : scanQuoted quote acc cs = some (written, rest)) :
    ∃ w, cs = w ++ quote :: rest ∧ ∀ rest',
      scanQuoted quote acc (w ++ quote :: rest') = some (written, rest') := by
  fun_induction scanQuoted quote acc cs with
  | case1 acc cs ih =>
    obtain ⟨w, rfl, other⟩ := ih h
    exact ⟨'\\' :: '\r' :: '\n' :: w, rfl, other⟩
  | case2 acc c cs pair ih =>
    obtain ⟨w, rfl, other⟩ := ih h
    refine ⟨'\\' :: c :: w, rfl, fun rest' => ?_⟩
    rw [List.cons_append, List.cons_append, scanQuoted]
    · exact other rest'
    · intro cs' same whole
      cases w with
      | nil =>
        obtain ⟨rfl, -⟩ := List.cons.inj whole
        exact pair rest same rfl
      | cons d w =>
        obtain ⟨rfl, -⟩ := List.cons.inj whole
        exact pair _ same rfl
  | case3 acc c cs pair escape closing =>
    obtain ⟨rfl, rfl⟩ := Prod.mk.inj (Option.some.inj h)
    obtain rfl : c = quote := by simpa using closing
    refine ⟨[], rfl, fun rest' => ?_⟩
    rw [List.nil_append, scanQuoted_plain hq, if_pos closing]
  | case4 => cases h
  | case5 acc c cs pair escape other plain ih =>
    obtain ⟨w, rfl, more⟩ := ih h
    have backslash : c ≠ '\\' := by
      rintro rfl
      exact plain (by simp)
    refine ⟨c :: w, rfl, fun rest' => ?_⟩
    rw [List.cons_append, scanQuoted_plain backslash, if_neg other, if_neg plain, more]
  | case6 => cases h

theorem joinSurrogates_char (d : Char) (codes : List Nat) :
    joinSurrogates (d.toNat :: codes) = (joinSurrogates codes).map (d :: ·) := by
  have valid : d.toNat.isValidChar := d.valid
  have high : (0xd800 ≤ d.toNat && d.toNat < 0xdc00) = false := by
    simp only [Nat.isValidChar] at valid
    simp only [Bool.and_eq_false_iff, decide_eq_false_iff_not]
    omega
  have low : (0xdc00 ≤ d.toNat && d.toNat < 0xe000) = false := by
    simp only [Nat.isValidChar] at valid
    simp only [Bool.and_eq_false_iff, decide_eq_false_iff_not]
    omega
  cases codes <;> simp [joinSurrogates, high, low, Char.ofNat_toNat]

theorem inline {c : Char} (h : ¬isLineEnd c = true) : isNewline c = false :=
  not_newline (p := fun c => !isLineEnd c) rfl rfl (by simpa using h)

theorem scanPattern_eq_some {inClass : Bool} {cs rest : List Char} {pos stop : Nat}
    (h : scanPattern inClass cs pos = some (rest, stop)) :
    ∃ w, Closed w ∧ cs = w ++ rest ∧ ∀ rest', scanPattern inClass (w ++ rest') pos = some (rest', stop) := by
  fun_induction scanPattern inClass cs pos with
  | case1 => cases h
  | case2 inClass c cs pos plain ih =>
    obtain ⟨w, closed, rfl, other⟩ := ih h
    refine ⟨'\\' :: c :: w, (closed.cons (inline plain)).cons rfl, rfl, fun rest' => ?_⟩
    rw [List.cons_append, List.cons_append, scanPattern, if_neg plain, other]
  | case3 => cases h
  | case4 inClass c cs pos escape plain closing =>
    obtain ⟨rfl, rfl⟩ := Prod.mk.inj (Option.some.inj h)
    have backslash : c ≠ '\\' := by
      rintro rfl
      exact plain (by simp)
    have lineEnd : ¬isLineEnd c = true := fun line => plain (by simp [line])
    refine ⟨[c], closed_nil.cons (inline lineEnd), rfl, fun rest' => ?_⟩
    rw [List.cons_append, scanPattern, if_neg plain, if_pos closing]
    · rfl
    · intros
      exact backslash ‹_›
  | case5 inClass c cs pos escape plain closing ih =>
    obtain ⟨w, closed, rfl, other⟩ := ih h
    have backslash : c ≠ '\\' := by
      rintro rfl
      exact plain (by simp)
    have lineEnd : ¬isLineEnd c = true := fun line => plain (by simp [line])
    refine ⟨c :: w, closed.cons (inline lineEnd), rfl, fun rest' => ?_⟩
    rw [List.cons_append, scanPattern, if_neg plain, if_neg closing, other]
    intros
    exact backslash ‹_›
  | case6 => cases h

theorem scanTemplate_eq_some {valid : Bool} {cs : List Char} {pos : Nat} {stretch : Stretch}
    (h : scanTemplate valid cs pos = some stretch) :
    ∃ w last, cs = w ++ last :: stretch.rest ∧ (last = '\x60' ∨ last = '{') ∧
      ∀ valid rest, ∃ valid', scanTemplate valid (w ++ last :: rest) pos =
        some ⟨rest, stretch.stop, stretch.substitution, valid'⟩ := by
  fun_induction scanTemplate valid cs pos with
  | case1 valid cs pos =>
    obtain rfl := Option.some.inj h
    exact ⟨[], '\x60', rfl, .inl rfl, fun valid rest => ⟨valid, rfl⟩⟩
  | case2 valid cs pos =>
    obtain rfl := Option.some.inj h
    exact ⟨['$'], '{', rfl, .inr rfl, fun valid rest => ⟨valid, rfl⟩⟩
  | case3 valid c cs pos ih =>
    obtain ⟨w, last, rfl, closing, other⟩ := ih h
    refine ⟨'\\' :: c :: w, last, rfl, closing, fun valid rest => ?_⟩
    rw [List.cons_append, List.cons_append, scanTemplate]
    exact other _ rest
  | case4 valid c cs pos backquote substitution escape ih =>
    obtain ⟨w, last, rfl, closing, other⟩ := ih h
    refine ⟨c :: w, last, rfl, closing, fun valid rest => ?_⟩
    rw [List.cons_append, scanTemplate]
    · exact other valid rest
    · exact backquote
    · intro cs' same whole
      cases w with
      | nil =>
        obtain ⟨rfl, -⟩ := List.cons.inj whole
        exact substitution _ same rfl
      | cons d w =>
        obtain ⟨rfl, -⟩ := List.cons.inj whole
        exact substitution _ same rfl
    · intro d cs' same whole
      cases w with
      | nil => exact escape _ _ same rfl
      | cons d w => exact escape _ _ same rfl
  | case5 => cases h

theorem scanFlags_eq_some {cs : List Char} {pos : Nat} {word : Word}
    (h : scanFlags cs pos = some word) :
    ∃ w, Closed w ∧ cs = w ++ word.rest ∧ ∀ rest, Parts word.rest rest →
      scanFlags (w ++ rest) pos = some { word with rest := rest } := by
  by_cases letter : (cs.head?.map isNameStart).getD false = true
  · rw [scanFlags, if_pos letter] at h
    cases cs with
    | nil => simp at letter
    | cons c cs =>
      have start : isNameStart c = true := by simpa using letter
      rw [scanWord_letter start] at h
      obtain ⟨breaks, w, closed, rfl, other⟩ := scanWord_eq_some h
      have stops := breaks (scanWord_nonempty (by simp) h)
      refine ⟨c :: w, closed.cons (not_newline_of_start start), rfl, fun rest parts => ?_⟩
      have breaks' : Breaks rest := by
        rcases parts with same | breaks'
        · exact stops.head same
        · exact breaks'
      rw [List.cons_append, scanFlags, if_pos (by simpa using start), scanWord_letter start,
        other rest breaks']
  · rw [scanFlags, if_neg letter] at h
    obtain rfl := Option.some.inj h
    refine ⟨[], closed_nil, rfl, fun rest parts => ?_⟩
    rw [List.nil_append, scanFlags, if_neg]
    rcases parts with same | breaks
    · rwa [same]
    · cases rest with
      | nil => simp
      | cons c rest => simp [breaks.not_isNameStart c rfl]

theorem scanRegex_eq_some {cs rest : List Char} {pos stop : Nat}
    (h : scanRegex cs pos = some (rest, stop)) :
    endsNumeral rest = true ∧ ∃ w, Closed w ∧ cs = w ++ rest ∧ ∀ rest', Parts rest rest' →
      scanRegex (w ++ rest') pos = some (rest', stop) := by
  simp only [scanRegex, Option.bind_eq_bind, Option.bind_eq_some_iff] at h
  obtain ⟨⟨behind, middle⟩, pattern, word, flags, h⟩ := h
  obtain ⟨w, closed, rfl, body⟩ := scanPattern_eq_some pattern
  obtain ⟨w', closed', rfl, more⟩ := scanFlags_eq_some flags
  split at h
  next valid =>
    obtain ⟨rfl, rfl⟩ := Prod.mk.inj (Option.some.inj h)
    simp only [Bool.and_eq_true] at valid
    refine ⟨valid.2, w ++ w', closed.append closed', by simp, fun rest' parts => ?_⟩
    simp only [scanRegex, List.append_assoc, body, Option.bind_eq_bind, Option.bind_some,
      more rest' parts, valid.1, parts.endsNumeral valid.2]
    rfl
  · cases h

theorem scanTagWord_eq {acc cs text rest : List Char} {pos stop : Nat}
    (h : Parse.scanTagWord acc cs pos = (text, rest, stop)) :
    (∀ c ∈ rest.head?, isNamePart c = false ∧ c ≠ '-') ∧ ∃ w, Closed w ∧ cs = w ++ rest ∧ ∀ rest',
      (∀ c ∈ rest'.head?, isNamePart c = false ∧ c ≠ '-') →
        Parse.scanTagWord acc (w ++ rest') pos = (text, rest', stop) := by
  have here (acc : List Char) (pos : Nat) {rest' : List Char}
      (stops : ∀ c ∈ rest'.head?, isNamePart c = false ∧ c ≠ '-') :
      Parse.scanTagWord acc rest' pos = (acc.reverse, rest', pos) := by
    cases rest' with
    | nil => rfl
    | cons c rest' =>
      obtain ⟨part, dash⟩ := stops c rfl
      rw [Parse.scanTagWord, if_neg (by simp [part, dash])]
  fun_induction Parse.scanTagWord acc cs pos with
  | case1 acc c cs pos part ih =>
    obtain ⟨stops, w, closed, rfl, other⟩ := ih h
    have letter : isNewline c = false :=
      not_newline (p := fun c => isNamePart c || c == '-') (by decide) (by decide) part
    refine ⟨stops, c :: w, closed.cons letter, rfl, fun rest' stops' => ?_⟩
    rw [List.cons_append, Parse.scanTagWord, if_pos part, other rest' stops']
  | case2 acc c cs pos part =>
    obtain ⟨rfl, same⟩ := Prod.mk.inj h
    obtain ⟨rfl, rfl⟩ := Prod.mk.inj same
    refine ⟨?_, [], closed_nil, rfl, fun rest' stops' => here acc pos stops'⟩
    intro d mem
    obtain rfl : c = d := by simpa using mem
    simpa using part
  | case3 acc pos =>
    obtain ⟨rfl, same⟩ := Prod.mk.inj h
    obtain ⟨rfl, rfl⟩ := Prod.mk.inj same
    exact ⟨by simp, [], closed_nil, rfl, fun rest' stops' => here acc pos stops'⟩

theorem attributeText_eq_some {quote : Char} {cs rest : List Char} {pos stop : Nat}
    (h : Parse.attributeText quote cs pos = some (rest, stop)) :
    ∃ w, cs = w ++ quote :: rest ∧ ∀ rest',
      Parse.attributeText quote (w ++ quote :: rest') pos = some (rest', stop) := by
  fun_induction Parse.attributeText quote cs pos with
  | case1 c cs pos closing =>
    obtain ⟨rfl, rfl⟩ := Prod.mk.inj (Option.some.inj h)
    obtain rfl : c = quote := by simpa using closing
    refine ⟨[], rfl, fun rest' => ?_⟩
    rw [List.nil_append, Parse.attributeText, if_pos closing]
  | case2 c cs pos other ih =>
    obtain ⟨w, rfl, more⟩ := ih h
    refine ⟨c :: w, rfl, fun rest' => ?_⟩
    rw [List.cons_append, Parse.attributeText, if_neg other, more]
  | case3 => cases h

theorem scanMarkupText_eq_some {cs rest : List Char} {pos stop : Nat}
    (h : Parse.scanMarkupText cs pos = some (rest, stop)) :
    (rest.head? = some '{' ∨ rest.head? = some '<') ∧ ∃ w, cs = w ++ rest ∧ ∀ rest',
      rest'.head? = rest.head? → Parse.scanMarkupText (w ++ rest') pos = some (rest', stop) := by
  fun_induction Parse.scanMarkupText cs pos with
  | case1 => cases h
  | case2 c cs pos opening =>
    obtain ⟨rfl, rfl⟩ := Prod.mk.inj (Option.some.inj h)
    refine ⟨by simpa using opening, [], rfl, fun rest' same => ?_⟩
    obtain ⟨rest', rfl⟩ := List.head?_eq_some_iff.1 same
    rw [List.nil_append, Parse.scanMarkupText, if_pos opening]
  | case3 => cases h
  | case4 c cs pos opening closing ih =>
    obtain ⟨stops, w, rfl, other⟩ := ih h
    refine ⟨stops, c :: w, rfl, fun rest' same => ?_⟩
    rw [List.cons_append, Parse.scanMarkupText, if_neg opening, if_neg closing, other rest' same]

end BundlePrep.Script
