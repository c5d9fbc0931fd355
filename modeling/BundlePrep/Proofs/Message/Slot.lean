import BundlePrep.Message.Inline
import BundlePrep.Proofs.Message.Readback

/-!
# Slots of inserted placeholders

Code without the mark of a placeholder has no slots and is left as it is. A quoted placeholder that
stands behind such code is a slot of its own, and what follows it decides whether the slot takes a
message along.
-/

set_option autoImplicit false

namespace BundlePrep.Message

open BundlePrep.Json BundlePrep.Text

/-- How every placeholder begins. -/
def marker : List Char := ['%', '%', 'N', 'L', 'S']

/-- Text without the mark of a placeholder. -/
def Calm (text : List Char) : Prop := ¬marker <:+: text

theorem not_infix_iff {part text : List Char} : ¬part <:+: text ↔ occursIn part text = false := by
  rw [← Bool.not_eq_true, occursIn_iff]
  refine not_congr (exists_congr fun before => exists_congr fun after => ?_)
  exact eq_comm

theorem calm_iff {text : List Char} : Calm text ↔ occursIn marker text = false := not_infix_iff

instance (text : List Char) : Decidable (Calm text) := decidable_of_iff _ calm_iff.symm

def AtQuote (rest : List Char) : Prop := rest = [] ∨ rest.head? = some '"'

theorem atQuote_nil : AtQuote [] := .inl rfl

def inlined (numbers : Numbers) (build : Build) (code : List Char) : List Char :=
  (segments code).flatMap fun s => (inlineSegment numbers build s).code

def scanned (numbers : Numbers) (build : Build) (code : List Char) : Inlined :=
  inlineSegments numbers build (segments code)

section

variable {numbers : Numbers} {build : Build}

theorem opening_eq (flavor : Flavor) : ∃ more, flavor.opening.toList = marker ++ more := by
  cases flavor
  · exact ⟨[':'], by decide⟩
  · exact ⟨['2', ':'], by decide⟩

theorem placeholder?_marker {cs rest : List Char} {q : Quoted}
    (h : placeholder? cs = some (q, rest)) : ∃ quote more,
      (quote = '"' ∨ quote = '\x27') ∧ cs = quote :: (marker ++ more) := by
  unfold placeholder? at h
  split at h
  · cases h
  · next quote inside =>
    split at h
    next plain =>
      obtain ⟨flavor, -, found⟩ := List.exists_of_findSome?_eq_some h
      simp only [Option.bind_eq_bind, Option.bind_eq_some_iff, Option.pure_def] at found
      obtain ⟨inner, dropped, -⟩ := found
      obtain ⟨more, opening⟩ := opening_eq flavor
      refine ⟨quote, more ++ inner, plain, ?_⟩
      rw [dropPart?_eq_some dropped, opening, List.append_assoc]
    next => cases h

theorem slot?_marker {cs rest : List Char} {slot : Slot} (h : slot? cs = some (slot, rest)) :
    ∃ quote more, (quote = '"' ∨ quote = '\x27') ∧ cs = quote :: (marker ++ more) := by
  simp only [slot?, Option.bind_eq_bind, Option.bind_eq_some_iff] at h
  obtain ⟨⟨q, behind⟩, found, -⟩ := h
  exact placeholder?_marker found

theorem Calm.of_append_right {a b : List Char} (h : Calm (a ++ b)) : Calm b :=
  fun mem => h (mem.trans (List.suffix_append a b).isInfix)

theorem Calm.of_append_left {a b : List Char} (h : Calm (a ++ b)) : Calm a :=
  fun mem => h (mem.trans (List.prefix_append a b).isInfix)

theorem prefix_of_prefix_append {part text rest : List Char}
    (behind : ∀ d ∈ rest.head?, d ∉ part) (h : part <+: text ++ rest) : part <+: text := by
  rcases List.prefix_or_prefix_of_prefix h (List.prefix_append text rest) with inside | ⟨more, rfl⟩
  · exact inside
  · cases more with
    | nil => simp
    | cons d more =>
      rw [List.prefix_append_right_inj] at h
      obtain ⟨last, rfl⟩ := h
      exact absurd (by simp) (behind d (by simp))

theorem slot?_eq_none {c : Char} {cs : List Char} (h : c = '"' ∨ c = '\x27' → ¬marker <+: cs) :
    slot? (c :: cs) = none := by
  cases found : slot? (c :: cs) with
  | none => rfl
  | some r =>
    obtain ⟨quote, more, plain, whole⟩ := slot?_marker found
    obtain ⟨rfl, rfl⟩ := List.cons.inj whole
    exact absurd (List.prefix_append marker more) (h plain)

/-- Text in which no quote stands in front of the mark of a placeholder. -/
def Unquoted (text : List Char) : Prop :=
  ∀ quote, quote = '"' ∨ quote = '\x27' → ¬quote :: marker <:+: text

theorem unquoted_iff {text : List Char} : Unquoted text ↔
    occursIn ('"' :: marker) text = false ∧ occursIn ('\x27' :: marker) text = false := by
  simp only [Unquoted, forall_eq_or_imp, forall_eq, not_infix_iff]

instance (text : List Char) : Decidable (Unquoted text) :=
  decidable_of_iff _ unquoted_iff.symm

theorem Calm.unquoted {text : List Char} (h : Calm text) : Unquoted text :=
  fun quote _ mem => h ((List.suffix_cons quote marker).isInfix.trans mem)

theorem Unquoted.of_cons {c : Char} {text : List Char} (h : Unquoted (c :: text)) : Unquoted text :=
  fun quote plain mem => h quote plain (mem.trans (List.suffix_cons c text).isInfix)

theorem Unquoted.not_prefix {quote : Char} {text : List Char} (h : Unquoted (quote :: text))
    (plain : quote = '"' ∨ quote = '\x27') : ¬marker <+: text := fun mem =>
  h quote plain (List.prefix_cons_inj quote |>.2 mem).isInfix

theorem segments_nil : segments [] = [] := by
  rw [segments]
  rfl

theorem segments_char {c : Char} {cs : List Char} (h : slot? (c :: cs) = none) :
    segments (c :: cs) = .char c :: segments cs := by
  rw [segments]
  split
  next slot rest found => rw [h] at found; cases found
  next => rfl

theorem segments_slot {cs rest : List Char} {slot : Slot} (h : slot? cs = some (slot, rest)) :
    segments cs = .slot slot :: segments rest := by
  rw [segments]
  split
  next slot' rest' found =>
    rw [h] at found
    obtain ⟨rfl, rfl⟩ := Prod.mk.inj (Option.some.inj found)
    rfl
  next none => rw [h] at none; cases none

theorem code_inlineSegments (pieces : List Segment) :
    (inlineSegments numbers build pieces).code =
      pieces.flatMap fun s => (inlineSegment numbers build s).code := by
  induction pieces with
  | nil => rfl
  | cons s pieces ih =>
    rw [List.flatMap_cons, ← ih]
    rfl

theorem code_scanned (numbers : Numbers) (build : Build) (code : List Char) :
    (scanned numbers build code).code = inlined numbers build code :=
  code_inlineSegments (segments code)

theorem scanned_char {c : Char} {cs : List Char} (h : slot? (c :: cs) = none) :
    scanned numbers build (c :: cs) =
      (Inlined.unchanged [c]).append (scanned numbers build cs) := by
  rw [scanned, segments_char h]
  rfl

theorem scanned_unquoted (numbers : Numbers) (build : Build) {text : List Char}
    (unquoted : Unquoted text) {rest : List Char} (behind : ∀ d ∈ rest.head?, d ∉ marker) :
    scanned numbers build (text ++ rest) =
      (Inlined.unchanged text).append (scanned numbers build rest) := by
  induction text with
  | nil => simp [Inlined.append, Inlined.unchanged]
  | cons c text ih =>
    have none : slot? (c :: (text ++ rest)) = none := slot?_eq_none fun plain mem =>
      unquoted.not_prefix plain (prefix_of_prefix_append behind mem)
    rw [List.cons_append, scanned_char none, ih unquoted.of_cons]
    simp [Inlined.append, Inlined.unchanged]

theorem AtQuote.head {rest : List Char} (h : AtQuote rest) : ∀ d ∈ rest.head?, d ∉ marker := by
  rcases h with rfl | quote
  · simp
  · intro d mem
    obtain rfl : '"' = d := Option.some.inj (quote.symm.trans mem)
    decide

theorem scanned_calm (numbers : Numbers) (build : Build) {text : List Char} (calm : Calm text)
    {rest : List Char} (behind : AtQuote rest) :
    scanned numbers build (text ++ rest) =
      (Inlined.unchanged text).append (scanned numbers build rest) :=
  scanned_unquoted numbers build calm.unquoted behind.head

theorem scanned_of_calm (numbers : Numbers) (build : Build) {text : List Char} (calm : Calm text) :
    scanned numbers build text = .unchanged text := by
  have whole := scanned_calm numbers build calm atQuote_nil
  have none : scanned numbers build [] = .unchanged [] := by
    rw [scanned, segments_nil]
    rfl
  rw [List.append_nil, none] at whole
  simpa [Inlined.append, Inlined.unchanged] using whole

theorem inlineNumbers_eq (code : List Char) :
    inlineNumbers numbers build code = scanned numbers build code := by
  unfold inlineNumbers
  split_ifs with marked
  · rfl
  · have calm : Calm code := calm_iff.2 (Bool.not_eq_true _ ▸ marked)
    exact (scanned_of_calm numbers build calm).symm

theorem inlined_calm (numbers : Numbers) (build : Build) {text : List Char} (calm : Calm text)
    {rest : List Char} (behind : AtQuote rest) :
    inlined numbers build (text ++ rest) = text ++ inlined numbers build rest := by
  rw [← code_scanned, ← code_scanned, scanned_calm numbers build calm behind]
  rfl

theorem inlined_of_calm (numbers : Numbers) (build : Build) {text : List Char} (calm : Calm text) :
    inlined numbers build text = text := by
  rw [← code_scanned, scanned_of_calm numbers build calm]
  rfl

theorem code_inlineNumbers (code : List Char) :
    (inlineNumbers numbers build code).code = inlined numbers build code := by
  rw [inlineNumbers_eq, code_scanned]

/-! ## A quoted placeholder -/

def percentsAfter (percents : Nat) : List Char → Nat
  | [] => percents
  | c :: cs => percentsAfter (if c = '%' then percents + 1 else 0) cs

theorem percentsAfter_append (percents : Nat) (a b : List Char) :
    percentsAfter percents (a ++ b) = percentsAfter (percentsAfter percents a) b := by
  induction a generalizing percents with
  | nil => rfl
  | cons c a ih => exact ih _

theorem placeholderBody?_other {quote c : Char} (other : c ≠ quote) (backslash : c ≠ '\\')
    (lineFeed : c ≠ '\n') (percents : Nat) (cs : List Char) :
    placeholderBody? quote percents (c :: cs) =
      (placeholderBody? quote (if c = '%' then percents + 1 else 0) cs).map fun (body, rest) =>
        (c :: body, rest) := by
  rw [placeholderBody?, if_neg other, if_neg (by simp [backslash, lineFeed])]
  rintro d cs' rfl
  exact absurd rfl backslash

theorem placeholderBody?_plain {c : Char} (h : IsPlain c) (percents : Nat) (cs : List Char) :
    placeholderBody? '"' percents (c :: cs) =
      (placeholderBody? '"' (if c = '%' then percents + 1 else 0) cs).map fun (body, rest) =>
        (c :: body, rest) :=
  placeholderBody?_other h.1 h.2.1 h.2.2.1 percents cs

theorem placeholderBody?_escape {quote d : Char} (h : d ≠ '\n') (percents : Nat) (cs : List Char) :
    placeholderBody? quote percents ('\\' :: d :: cs) =
      (placeholderBody? quote 0 cs).map fun (body, rest) => ('\\' :: d :: body, rest) := by
  rw [placeholderBody?, if_neg h]

theorem placeholderBody?_encode (percents : Nat) (text rest : List Char) :
    placeholderBody? '"' percents (encode text ++ rest) =
      (placeholderBody? '"' (percentsAfter percents text) rest).map fun (body, behind) =>
        (encode text ++ body, behind) := by
  induction text generalizing percents with
  | nil => simp [percentsAfter, encode_nil]
  | cons c text ih =>
    rw [encode_cons, List.append_assoc, percentsAfter]
    rcases encodeChar_cases c with ⟨same, plain⟩ | ⟨d, same, letters, reads⟩ | ⟨same, control⟩
    · rw [same, List.singleton_append, placeholderBody?_plain plain, ih, Option.map_map]
      rfl
    · have letter : c ≠ '%' := by
        rintro rfl
        have written : encodeChar '%' = ['%'] := by decide
        rw [written] at same
        cases same
      have lineFeed : d ≠ '\n' := fun newline => absurd (newline ▸ letters) (by decide)
      rw [same, List.cons_append, List.singleton_append, placeholderBody?_escape lineFeed, ih,
        if_neg letter, Option.map_map]
      rfl
    · have letter : c ≠ '%' := by
        rintro rfl
        exact absurd control (by decide)
      obtain ⟨high, notHigh⟩ := hexDigit_isPlain (n := c.toNat / 16) (by omega)
      obtain ⟨low, notLow⟩ := hexDigit_isPlain (n := c.toNat % 16) (by omega)
      have zero : IsPlain '0' := by simp [IsPlain]
      rw [same]
      simp only [List.cons_append, List.nil_append]
      rw [placeholderBody?_escape (by decide), placeholderBody?_plain zero,
        placeholderBody?_plain zero, placeholderBody?_plain high, placeholderBody?_plain low,
        if_neg notLow, if_neg letter, ih]
      simp only [Option.map_map]
      rfl

theorem dropPart?_append (part rest : List Char) : dropPart? part (part ++ rest) = some rest := by
  induction part with
  | nil => rfl
  | cons d part ih => rw [List.cons_append, dropPart?, if_pos rfl, ih]

theorem placeholderBody?_quoted {text : List Char} (h : 2 ≤ percentsAfter 0 text)
    (rest : List Char) :
    placeholderBody? '"' 0 (encode text ++ '"' :: rest) = some (encode text, rest) := by
  rw [placeholderBody?_encode, placeholderBody?, if_pos rfl, if_pos h]
  · simp
  · rintro d cs' backslash
    exact absurd backslash (by decide)

theorem encode_opening (flavor : Flavor) : encode flavor.opening.toList = flavor.opening.toList := by
  cases flavor <;> decide

theorem placeholder?_opening {quote : Char} (plain : quote = '"' ∨ quote = '\x27') (flavor : Flavor)
    (cs : List Char) : placeholder? (quote :: (flavor.opening.toList ++ cs)) =
      (placeholderBody? quote 0 cs).map fun (body, rest) =>
        (⟨quote, flavor.opening.toList ++ body⟩, rest) := by
  have blank : Flavor.blank.opening.toList = ['%', '%', 'N', 'L', 'S', ':'] := by decide
  have keep : Flavor.keep.opening.toList = ['%', '%', 'N', 'L', 'S', '2', ':'] := by decide
  rw [placeholder?, if_pos plain]
  cases flavor with
  | blank =>
    have other : dropPart? Flavor.keep.opening.toList (Flavor.blank.opening.toList ++ cs) = none := by
      rw [blank, keep]
      rfl
    simp only [Flavor.all, List.findSome?_cons, dropPart?_append, other, Option.bind_eq_bind,
      Option.bind_none, Option.bind_some]
    cases placeholderBody? quote 0 cs <;> rfl
  | keep =>
    have other : dropPart? Flavor.blank.opening.toList (Flavor.keep.opening.toList ++ cs) = none := by
      rw [blank, keep]
      rfl
    simp only [Flavor.all, List.findSome?_cons, dropPart?_append, other, Option.bind_eq_bind,
      Option.bind_none, Option.bind_some]
    cases placeholderBody? quote 0 cs <;> rfl

def Shaped (text : List Char) : Prop :=
  ∃ (flavor : Flavor) (inner : List Char), text = flavor.opening.toList ++ (inner ++ ['%', '%'])

theorem shaped_placeholder (flavor : Flavor) (moduleId key : String) :
    Shaped (placeholder flavor moduleId key).toList :=
  ⟨flavor, moduleId.toList ++ '#' :: key.toList, toList_placeholder flavor moduleId key⟩

theorem placeholder?_quoteChars {text : List Char} (h : Shaped text) (rest : List Char) :
    placeholder? (quoteChars text ++ rest) = some (⟨'"', encode text⟩, rest) := by
  obtain ⟨flavor, inner, rfl⟩ := h
  have percents : 2 ≤ percentsAfter 0 (inner ++ ['%', '%']) := by
    rw [percentsAfter_append]
    simp [percentsAfter]
  generalize inner ++ ['%', '%'] = body at percents
  have shape : quoteChars (flavor.opening.toList ++ body) ++ rest =
      '"' :: (flavor.opening.toList ++ (encode body ++ '"' :: rest)) := by
    rw [quoteChars, encode_append, encode_opening]
    simp
  rw [shape, encode_append, encode_opening, placeholder?_opening (.inl rfl),
    placeholderBody?_quoted percents]
  rfl

theorem placeholder?_quote (flavor : Flavor) (moduleId key : String) (rest : List Char) :
    placeholder? (quoteChars (placeholder flavor moduleId key).toList ++ rest) =
      some (⟨'"', encode (placeholder flavor moduleId key).toList⟩, rest) :=
  placeholder?_quoteChars (shaped_placeholder flavor moduleId key) rest

theorem value_quote (text : List Char) :
    (Quoted.mk '"' (encode text)).value = String.ofList text := by
  have whole : (Quoted.mk '"' (encode text)).text = quoteChars text := rfl
  rw [Quoted.value, whole, parseValue_quote]

theorem slot?_placeholder {cs rest : List Char} {q : Quoted} (h : placeholder? cs = some (q, rest)) :
    slot? cs =
      match fallback? rest with
      | none => some (⟨q, none⟩, rest)
      | some (f, behind) => some (⟨q, some f⟩, behind) := by
  cases found : fallback? rest <;> simp [slot?, h, found]

theorem slot?_quote (flavor : Flavor) (moduleId key : String) (rest : List Char) :
    slot? (quoteChars (placeholder flavor moduleId key).toList ++ rest) =
      match fallback? rest with
      | none => some (⟨⟨'"', encode (placeholder flavor moduleId key).toList⟩, none⟩, rest)
      | some (f, behind) =>
        some (⟨⟨'"', encode (placeholder flavor moduleId key).toList⟩, some f⟩, behind) :=
  slot?_placeholder (placeholder?_quote flavor moduleId key rest)

theorem scanned_quote {flavor : Flavor} {moduleId key : String} {number : Nat}
    (h : numbers.number? (placeholder flavor moduleId key) = some number) (rest : List Char) :
    scanned numbers build (quoteChars (placeholder flavor moduleId key).toList ++ rest) =
      match fallback? rest with
      | none => Inlined.append ⟨Nat.toDigits 10 number, 1, 0, []⟩ (scanned numbers build rest)
      | some (f, behind) =>
        Inlined.append
          (if blanks build (placeholder flavor moduleId key) f.message then
            ⟨Nat.toDigits 10 number ++ (f.comma ++ "null".toList), 1, 1, []⟩
          else ⟨Nat.toDigits 10 number ++ (f.comma ++ f.message.text), 1, 0, []⟩)
          (scanned numbers build behind) := by
  have value : (Quoted.mk '"' (encode (placeholder flavor moduleId key).toList)).value =
      placeholder flavor moduleId key := by
    rw [value_quote, String.ofList_toList]
  have slot := slot?_quote flavor moduleId key rest
  cases found : fallback? rest with
  | none =>
    rw [found] at slot
    rw [scanned, segments_slot slot, inlineSegments, List.foldr_cons, ← inlineSegments, ← scanned]
    simp [inlineSegment, inlineSlot, value, h, numbered]
  | some r =>
    rw [found] at slot
    rw [scanned, segments_slot slot, inlineSegments, List.foldr_cons, ← inlineSegments, ← scanned]
    by_cases blanked : blanks build (placeholder flavor moduleId key) r.1.message = true <;>
      simp [inlineSegment, inlineSlot, value, h, numbered, blanked]

theorem inlined_quote {flavor : Flavor} {moduleId key : String} {number : Nat}
    (h : numbers.number? (placeholder flavor moduleId key) = some number) (rest : List Char) :
    inlined numbers build (quoteChars (placeholder flavor moduleId key).toList ++ rest) =
      Nat.toDigits 10 number ++
        match fallback? rest with
        | none => inlined numbers build rest
        | some (f, behind) =>
          f.comma ++ (if blanks build (placeholder flavor moduleId key) f.message then
            "null".toList else f.message.text) ++ inlined numbers build behind := by
  rw [← code_scanned, scanned_quote h]
  cases fallback? rest with
  | none => simp [Inlined.append, code_scanned]
  | some r =>
    by_cases blanked : blanks build (placeholder flavor moduleId key) r.1.message = true <;>
      simp [Inlined.append, code_scanned, blanked]

end

end BundlePrep.Message
