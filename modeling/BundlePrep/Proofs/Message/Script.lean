import BundlePrep.Message.Artifact
import BundlePrep.Proofs.Message.Fallback

/-!
# The script of the messages

The script that holds the messages is built code like any other: numbers are looked for in it as well. A
message that reads like a placeholder is taken for one, and takes the message behind it along. The script
stays as it is if and only if none of these has a number.
-/

set_option autoImplicit false

namespace BundlePrep.Message

open BundlePrep.Json BundlePrep.Text

section

variable {numbers : Numbers} {build : Build}

/-! ## Code that stays as it is -/

theorem code_inlineSlot_append_ne {slot : Slot} {number : Nat} (cs cs' : List Char)
    (plain : slot.placeholder.quote = '"' ∨ slot.placeholder.quote = '\x27')
    (known : numbers.number? slot.placeholder.value = some number) :
    (inlineSlot numbers build slot).code ++ cs ≠ slot.text ++ cs' := by
  intro same
  obtain ⟨d, ds, digits⟩ :=
    List.exists_cons_of_ne_nil (Nat.toDigits_ne_nil (n := number) (b := 10))
  have digit : d.isDigit = true :=
    Nat.isDigit_of_mem_toDigits (n := number) (by decide) (Nat.le_refl 10) (by simp [digits])
  rw [inlineSlot, known] at same
  dsimp only at same
  rw [numbered, digits] at same
  have head : d = slot.placeholder.quote := (List.cons.inj same).1
  rcases plain with quote | quote <;> rw [head, quote] at digit <;> cases digit

theorem plain_of_slot? {cs rest : List Char} {slot : Slot} (h : slot? cs = some (slot, rest)) :
    slot.placeholder.quote = '"' ∨ slot.placeholder.quote = '\x27' := by
  obtain ⟨quote, more, plain, whole⟩ := slot?_marker h
  rw [slot?_eq_some h] at whole
  have head : slot.placeholder.quote = quote := (List.cons.inj whole).1
  rwa [head]

theorem scanned_slot {cs rest : List Char} {slot : Slot} (h : slot? cs = some (slot, rest)) :
    scanned numbers build cs =
      (inlineSlot numbers build slot).append (scanned numbers build rest) := by
  rw [scanned, segments_slot h]
  rfl

theorem scanned_nil : scanned numbers build [] = .unchanged [] := by
  rw [scanned, segments_nil]
  rfl

theorem replaced_inlineSlot_eq_zero_iff (slot : Slot) :
    (inlineSlot numbers build slot).replaced = 0 ↔
      numbers.number? slot.placeholder.value = none := by
  cases known : numbers.number? slot.placeholder.value <;>
    simp [inlineSlot, known, Inlined.unchanged]

theorem replaced_append_eq_zero_iff (a b : Inlined) :
    (a.append b).replaced = 0 ↔ a.replaced = 0 ∧ b.replaced = 0 :=
  Nat.add_eq_zero_iff

theorem replaced_scanned_eq_zero_iff (cs : List Char) : (scanned numbers build cs).replaced = 0 ↔
    ∀ slot, .slot slot ∈ segments cs → numbers.number? slot.placeholder.value = none := by
  induction cs using segments.induct with
  | case1 cs slot rest found ih =>
    rw [scanned_slot found, segments_slot found, replaced_append_eq_zero_iff,
      replaced_inlineSlot_eq_zero_iff, ih]
    simp only [List.mem_cons, Segment.slot.injEq, forall_eq_or_imp]
  | case2 => simp [scanned_nil, segments_nil, Inlined.unchanged]
  | case3 c cs none ih =>
    rw [scanned_char none, segments_char none]
    simp [← ih, Inlined.append, Inlined.unchanged]

theorem code_scanned_eq_iff (cs : List Char) :
    (scanned numbers build cs).code = cs ↔ (scanned numbers build cs).replaced = 0 := by
  induction cs using segments.induct with
  | case1 cs slot rest found ih =>
    have whole := slot?_eq_some found
    rw [scanned_slot found]
    cases known : numbers.number? slot.placeholder.value with
    | none => simp [inlineSlot, known, Inlined.append, Inlined.unchanged, whole, ih]
    | some number =>
      refine iff_of_false ?_ (by simp [inlineSlot, known, Inlined.append])
      rw [whole]
      exact code_inlineSlot_append_ne _ _ (plain_of_slot? found) known
  | case2 => simp [scanned_nil, Inlined.unchanged]
  | case3 c cs none ih =>
    rw [scanned_char none]
    simp [Inlined.append, Inlined.unchanged, ih]

/-! ## Messages between their quotes -/

theorem percentsAfter_concat (percents : Nat) (text : List Char) (c : Char) :
    percentsAfter percents (text ++ [c]) =
      if c = '%' then percentsAfter percents text + 1 else 0 := by
  rw [percentsAfter_append]
  rfl

theorem two_le_percentsAfter_iff (text : List Char) :
    2 ≤ percentsAfter 0 text ↔ ∃ inner, text = inner ++ ['%', '%'] := by
  constructor
  · intro h
    rcases List.eq_nil_or_concat text with rfl | ⟨front, c, rfl⟩
    · exact absurd h (by decide)
    rw [List.concat_eq_append, percentsAfter_concat] at h
    split at h
    next last =>
      rcases List.eq_nil_or_concat front with rfl | ⟨inner, d, rfl⟩
      · exact absurd h (by decide)
      rw [List.concat_eq_append, percentsAfter_concat] at h
      split at h
      next last' => exact ⟨inner, by simp [last, last']⟩
      next => omega
    next => omega
  · rintro ⟨inner, rfl⟩
    rw [show inner ++ ['%', '%'] = inner ++ ['%'] ++ ['%'] by simp, percentsAfter_concat,
      percentsAfter_concat, if_pos rfl, if_pos rfl]
    omega

theorem exists_of_prefix_encode {part text rest : List Char} (quote : '"' ∉ part)
    (backslash : '\\' ∉ part) (h : part <+: encode text ++ '"' :: rest) :
    ∃ body, text = part ++ body := by
  induction part generalizing text with
  | nil => exact ⟨text, rfl⟩
  | cons p part ih =>
    obtain ⟨ownQuote, otherQuote⟩ := List.ne_and_not_mem_of_not_mem_cons quote
    obtain ⟨own, other⟩ := List.ne_and_not_mem_of_not_mem_cons backslash
    cases text with
    | nil =>
      rw [encode_nil, List.nil_append, List.cons_prefix_cons] at h
      exact absurd h.1.symm ownQuote
    | cons c text =>
      rw [encode_cons, List.append_assoc] at h
      rcases encodeChar_cases c with ⟨same, -⟩ | ⟨d, same, -, -⟩ | ⟨same, -⟩
      · rw [same, List.singleton_append, List.cons_prefix_cons] at h
        obtain ⟨body, rfl⟩ := ih otherQuote other h.2
        exact ⟨body, by rw [h.1, List.cons_append]⟩
      · rw [same, List.cons_append, List.cons_prefix_cons] at h
        exact absurd h.1.symm own
      · rw [same, List.cons_append, List.cons_prefix_cons] at h
        exact absurd h.1.symm own

theorem not_quote_hexDigit {n : Nat} (h : n < 16) : ¬(hexDigit n = '"' ∨ hexDigit n = '\x27') := by
  have all : ∀ n < 16, ¬(hexDigit n = '"' ∨ hexDigit n = '\x27') := by decide
  exact all n h

theorem slot?_encode {c : Char} {text rest : List Char} (unquoted : Unquoted (c :: text)) :
    slot? (c :: (encode text ++ '"' :: rest)) = none :=
  slot?_eq_none fun plain mem => by
    obtain ⟨body, rfl⟩ := exists_of_prefix_encode (by decide) (by decide) mem
    exact unquoted.not_prefix plain (List.prefix_append ..)

theorem scanned_encode {text rest : List Char} (unquoted : Unquoted text)
    (behind : rest.head? ≠ some '%') :
    scanned numbers build (encode text ++ '"' :: rest) =
      (Inlined.unchanged (encode text ++ ['"'])).append (scanned numbers build rest) := by
  induction text with
  | nil =>
    have none : slot? ('"' :: rest) = none := slot?_eq_none fun _ mem => by
      obtain ⟨more, rfl⟩ := mem
      exact behind rfl
    exact scanned_char none
  | cons c text ih =>
    have passes {d : Char} {cs : List Char} (other : ¬(d = '"' ∨ d = '\x27')) :
        scanned numbers build (d :: cs) =
          (Inlined.unchanged [d]).append (scanned numbers build cs) :=
      scanned_char (slot?_eq_none fun plain => absurd plain other)
    rw [encode_cons, List.append_assoc]
    rcases encodeChar_cases c with ⟨same, -⟩ | ⟨d, same, letters, reads⟩ | ⟨same, control⟩
    · rw [same, List.singleton_append, scanned_char (slot?_encode unquoted), ih unquoted.of_cons]
      simp [Inlined.append, Inlined.unchanged]
    · have none : slot? (d :: (encode text ++ '"' :: rest)) = none := by
        by_cases quote : d = '"'
        · subst quote
          obtain rfl : c = '"' := by simpa [readEscape] using (reads []).symm
          exact slot?_encode unquoted
        · refine slot?_eq_none fun plain => ?_
          obtain rfl := plain.resolve_left quote
          exact absurd letters (by decide)
      rw [same, List.cons_append, List.singleton_append, passes (by decide), scanned_char none,
        ih unquoted.of_cons]
      simp [Inlined.append, Inlined.unchanged]
    · have high := not_quote_hexDigit (n := c.toNat / 16) (by omega)
      have low := not_quote_hexDigit (n := c.toNat % 16) (by omega)
      rw [same]
      simp only [List.cons_append, List.nil_append]
      rw [passes (by decide), passes (by decide), passes (by decide), passes (by decide),
        passes high, passes low, ih unquoted.of_cons]
      simp [Inlined.append, Inlined.unchanged]

theorem placeholder?_eq_none {text : List Char} (other : ¬Shaped text) (rest : List Char) :
    placeholder? (quoteChars text ++ rest) = none := by
  cases found : placeholder? (quoteChars text ++ rest) with
  | none => rfl
  | some r =>
    refine absurd ?_ other
    rw [quoteChars, List.append_assoc, List.cons_append, List.singleton_append, placeholder?,
      if_pos (.inl rfl)] at found
    obtain ⟨flavor, -, found⟩ := List.exists_of_findSome?_eq_some found
    simp only [Option.bind_eq_bind, Option.bind_eq_some_iff, Option.pure_def] at found
    obtain ⟨inner, dropped, read, body, -⟩ := found
    have whole := dropPart?_eq_some dropped
    have begins : flavor.opening.toList <+: encode text ++ '"' :: rest := ⟨inner, whole.symm⟩
    have quote : '"' ∉ flavor.opening.toList := by cases flavor <;> decide
    have backslash : '\\' ∉ flavor.opening.toList := by cases flavor <;> decide
    obtain ⟨behind, rfl⟩ := exists_of_prefix_encode quote backslash begins
    rw [encode_append, encode_opening, List.append_assoc, List.append_cancel_left_eq] at whole
    rw [← whole, placeholderBody?_encode, placeholderBody?] at body
    · rw [if_pos rfl] at body
      split at body
      next percents =>
        obtain ⟨inner, same⟩ := (two_le_percentsAfter_iff behind).1 percents
        exact ⟨flavor, inner, by rw [same]⟩
      next => cases body
    · rintro d cs' backslash
      exact absurd backslash (by decide)

theorem slot?_eq_none_of_not_shaped {text : List Char} (other : ¬Shaped text) (rest : List Char) :
    slot? (quoteChars text ++ rest) = none := by
  rw [slot?, placeholder?_eq_none other]
  rfl

theorem body_encode (text : List Char) : Body '"' (encode text) := by
  induction text with
  | nil => exact .nil
  | cons c text ih =>
    have plain {d : Char} {cs : List Char} (h : IsPlain d) (behind : Body '"' cs) :
        Body '"' (d :: cs) := .plain h.1 h.2.1 (fun newline => absurd newline h.2.2.1) behind
    rw [encode_cons]
    rcases encodeChar_cases c with ⟨same, own⟩ | ⟨d, same, -, -⟩ | ⟨same, control⟩
    · rw [same]
      exact plain own ih
    · rw [same]
      exact .escape d ih
    · have zero : IsPlain '0' := by simp [IsPlain]
      rw [same]
      exact .escape 'u' (plain zero (plain zero (plain (hexDigit_isPlain (by omega)).1
        (plain (hexDigit_isPlain (by omega)).1 ih))))

/-! ## One message after another -/

def behind (messages : List String) : List Char :=
  Value.compactItems (messages.map Value.ofText) ++ [';']

theorem behind_cons (message : String) (messages : List String) :
    behind (message :: messages) = ',' :: (quoteChars message.toList ++ behind messages) := by
  simp [behind, Value.compactItems, Value.ofText, Value.compactChars, Value.quoted, quoteChars]

theorem fallback?_behind_nil : fallback? (behind []) = none := by decide

theorem fallback?_behind_cons (message : String) (messages : List String) :
    fallback? (behind (message :: messages)) =
      some (⟨[','], ⟨'"', encode message.toList⟩⟩, behind messages) := by
  have comma : comma? (behind (message :: messages)) =
      some ([','], quoteChars message.toList ++ behind messages) := by
    have separates : Separates [','] := ⟨[], [], rfl, rfl, rfl⟩
    rw [behind_cons]
    exact comma?_of_separates separates (by decide) _
  have text : message? (quoteChars message.toList ++ behind messages) =
      some (⟨'"', encode message.toList⟩, behind messages) := by
    rw [quoteChars, List.append_assoc, List.cons_append, List.singleton_append, message?,
      if_pos (by decide), messageBody?_of_body (by decide) (body_encode _)]
    rfl
  rw [fallback?, comma]
  simp [text]

/-- Messages of which none is taken for a placeholder that has a number. One that is taken for another
placeholder takes the message behind it along. -/
def Quiet (numbers : Numbers) : List String → Prop
  | [] => True
  | [message] => Shaped message.toList → numbers.number? message = none
  | message :: next :: messages =>
    (Shaped message.toList → numbers.number? message = none ∧ Quiet numbers messages) ∧
      (¬Shaped message.toList → Quiet numbers (next :: messages))

theorem not_calm_of_shaped {text : List Char} (h : Shaped text) : ¬Calm text := by
  obtain ⟨flavor, inner, rfl⟩ := h
  obtain ⟨more, opening⟩ := opening_eq flavor
  rw [opening, List.append_assoc]
  exact fun calm => calm (List.prefix_append ..).isInfix

theorem quiet_of_calm {messages : List String}
    (calm : ∀ message ∈ messages, Calm message.toList) : Quiet numbers messages := by
  induction messages using Quiet.induct with
  | case1 => trivial
  | case2 message =>
    exact fun shaped => absurd (calm message (List.mem_singleton_self message))
      (not_calm_of_shaped shaped)
  | case3 message next messages ih ih' =>
    obtain ⟨own, others⟩ := List.forall_mem_cons.1 calm
    exact ⟨fun shaped => absurd own (not_calm_of_shaped shaped), fun _ => ih' others⟩

theorem replaced_char {c : Char} {cs : List Char} (other : ¬(c = '"' ∨ c = '\x27')) :
    (scanned numbers build (c :: cs)).replaced = (scanned numbers build cs).replaced := by
  rw [scanned_char (slot?_eq_none fun plain => absurd plain other)]
  exact Nat.zero_add _

theorem replaced_message {message : String} {rest : List Char} (other : ¬Shaped message.toList)
    (unquoted : Unquoted message.toList) (ends : rest.head? ≠ some '%') :
    (scanned numbers build (quoteChars message.toList ++ rest)).replaced =
      (scanned numbers build rest).replaced := by
  have none := slot?_eq_none_of_not_shaped other rest
  rw [quoteChars, List.append_assoc, List.cons_append, List.singleton_append] at none ⊢
  rw [scanned_char none, scanned_encode unquoted ends]
  simp [Inlined.append, Inlined.unchanged]

theorem head?_behind (messages : List String) : (behind messages).head? ≠ some '%' := by
  cases messages with
  | nil => decide
  | cons message messages =>
    rw [behind_cons]
    simp

theorem replaced_behind_eq_zero_iff {messages : List String}
    (unquoted : ∀ message ∈ messages, Unquoted message.toList) :
    (scanned numbers build (behind messages)).replaced = 0 ↔ Quiet numbers messages := by
  have start {message : String} {rest : List Char} : (scanned numbers build
      (',' :: (quoteChars message.toList ++ rest))).replaced =
        (scanned numbers build (quoteChars message.toList ++ rest)).replaced :=
    replaced_char (by decide)
  have value (message : String) : (Quoted.mk '"' (encode message.toList)).value = message := by
    rw [value_quote, String.ofList_toList]
  have none : (scanned numbers build (behind [])).replaced = 0 := by
    have calm : Calm (behind []) := by decide
    rw [scanned_of_calm numbers build calm]
    rfl
  induction messages using Quiet.induct with
  | case1 => exact iff_of_true none trivial
  | case2 message =>
    have own := unquoted message (List.mem_singleton_self message)
    rw [behind_cons, start, Quiet]
    by_cases shaped : Shaped message.toList
    · have slot := slot?_placeholder (placeholder?_quoteChars shaped (behind []))
      rw [fallback?_behind_nil] at slot
      rw [scanned_slot slot, replaced_append_eq_zero_iff, replaced_inlineSlot_eq_zero_iff, value]
      exact ⟨fun h _ => h.1, fun h => ⟨h shaped, none⟩⟩
    · rw [replaced_message shaped own (head?_behind _)]
      exact iff_of_true none fun h => absurd h shaped
  | case3 message next messages ih ih' =>
    obtain ⟨own, others⟩ := List.forall_mem_cons.1 unquoted
    have further : _ ↔ _ := ih (List.forall_mem_cons.1 others).2
    have following : _ ↔ _ := ih' others
    rw [behind_cons, start, Quiet]
    by_cases shaped : Shaped message.toList
    · have slot := slot?_placeholder
        (placeholder?_quoteChars shaped (behind (next :: messages)))
      rw [fallback?_behind_cons] at slot
      rw [scanned_slot slot, replaced_append_eq_zero_iff, replaced_inlineSlot_eq_zero_iff, value,
        further]
      exact ⟨fun h => ⟨fun _ => h, fun other => absurd shaped other⟩, fun h => h.1 shaped⟩
    · rw [replaced_message shaped own (head?_behind _), following]
      exact ⟨fun h => ⟨fun h' => absurd h' shaped, fun _ => h⟩, fun h => h.2 shaped⟩

theorem toList_compact (catalog : Catalog) : ∃ rest,
    catalog.messagesJson.compact.toList = '[' :: rest ∧
      (scanned numbers build (rest ++ [';'])).replaced =
        (scanned numbers build (behind catalog.messages)).replaced := by
  have text : catalog.messagesJson.compact.toList =
      (Value.ofTexts catalog.messages).compactChars := String.toList_ofList
  rw [text, Value.ofTexts]
  cases catalog.messages with
  | nil => exact ⟨[']'], rfl, rfl⟩
  | cons message messages =>
    refine ⟨quoteChars message.toList ++ Value.compactItems (messages.map Value.ofText), ?_, ?_⟩
    · simp [Value.compactChars, Value.ofText, Value.quoted, quoteChars]
    · rw [behind_cons, replaced_char (by decide), List.append_assoc]
      rfl

theorem replaced_script_eq_zero_iff {catalog : Catalog} {globalName : String}
    (unquoted : ∀ message ∈ catalog.messages, Unquoted message.toList)
    (plain : Unquoted globalName.toList) :
    (scanned numbers build (catalog.script globalName).toList).replaced = 0 ↔
      Quiet numbers catalog.messages := by
  obtain ⟨rest, list, same⟩ := @toList_compact numbers build catalog
  have whole : (catalog.script globalName).toList =
      "globalThis.".toList ++ (globalName.toList ++ '=' :: '[' :: (rest ++ [';'])) := by
    simp [Catalog.script, list]
  have front {rest : List Char} : (scanned numbers build ("globalThis.".toList ++ rest)).replaced =
      (scanned numbers build rest).replaced := by
    simp only [show "globalThis.".toList = ['g', 'l', 'o', 'b', 'a', 'l', 'T', 'h', 'i', 's', '.'] by
      decide, List.cons_append, List.nil_append]
    iterate 11 rw [replaced_char (by decide)]
  rw [whole, front, scanned_unquoted numbers build plain (by simp [marker]),
    replaced_append_eq_zero_iff, replaced_char (by decide), replaced_char (by decide), same,
    replaced_behind_eq_zero_iff unquoted]
  exact and_iff_right rfl

end

end BundlePrep.Message
