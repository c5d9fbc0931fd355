import BundlePrep.Message.Argument
import BundlePrep.Message.Artifact
import Mathlib.Data.Nat.Basic

/-!
# Quoted texts read back

A text that is written between double quotes is a constant argument, and reads back as itself. No
quote and no line feed of it stands in the code without a backslash. So the messages in the script
that makes them known read back as well, as one list.
-/

set_option autoImplicit false

namespace BundlePrep.Json

def shortForms : List (Char × Char) :=
  [('"', '"'), ('\\', '\\'), ('\x08', 'b'), ('\t', 't'), ('\n', 'n'), ('\x0c', 'f'), ('\r', 'r')]

theorem encodeChar_forms (c : Char) :
    (encodeChar c = [c] ∧ c ≠ '"' ∧ c ≠ '\\' ∧ ¬c.toNat < 0x20) ∨
      (∃ d, encodeChar c = ['\\', d] ∧ (c, d) ∈ shortForms) ∨
      encodeChar c = ['\\', 'u', '0', '0', hexDigit (c.toNat / 16), hexDigit (c.toNat % 16)] ∧
        c.toNat < 0x20 := by
  unfold encodeChar
  split_ifs with quote backslash backspace tab lineFeed formFeed carriageReturn control
  · exact .inr (.inl ⟨'"', rfl, by simp [quote, shortForms]⟩)
  · exact .inr (.inl ⟨'\\', rfl, by simp [backslash, shortForms]⟩)
  · exact .inr (.inl ⟨'b', rfl, by simp [backspace, shortForms]⟩)
  · exact .inr (.inl ⟨'t', rfl, by simp [tab, shortForms]⟩)
  · exact .inr (.inl ⟨'n', rfl, by simp [lineFeed, shortForms]⟩)
  · exact .inr (.inl ⟨'f', rfl, by simp [formFeed, shortForms]⟩)
  · exact .inr (.inl ⟨'r', rfl, by simp [carriageReturn, shortForms]⟩)
  · exact .inr (.inr ⟨rfl, control⟩)
  · exact .inl ⟨rfl, quote, backslash, control⟩

end BundlePrep.Json

namespace BundlePrep.Message

open BundlePrep.Json BundlePrep.Text

def IsPlain (c : Char) : Prop := c ≠ '"' ∧ c ≠ '\\' ∧ c ≠ '\n' ∧ c ≠ '\r'

theorem encodeChar_cases (c : Char) :
    (encodeChar c = [c] ∧ IsPlain c) ∨
      (∃ d, encodeChar c = ['\\', d] ∧ d ∈ ['"', '\\', 'b', 't', 'n', 'f', 'r'] ∧
        ∀ cs, readEscape (d :: cs) = some ([c], cs)) ∨
      encodeChar c = ['\\', 'u', '0', '0', hexDigit (c.toNat / 16), hexDigit (c.toNat % 16)] ∧
        c.toNat < 0x20 := by
  rcases encodeChar_forms c with ⟨same, quote, backslash, control⟩ | ⟨d, same, short⟩ | code
  · refine .inl ⟨same, quote, backslash, ?_, ?_⟩
    · rintro rfl
      exact control (by decide)
    · rintro rfl
      exact control (by decide)
  · have letters : ∀ p ∈ shortForms, p.2 ∈ ['"', '\\', 'b', 't', 'n', 'f', 'r'] := by decide
    refine .inr (.inl ⟨d, same, letters _ short, fun cs => ?_⟩)
    simp only [shortForms, List.mem_cons, Prod.mk.injEq, List.not_mem_nil, or_false] at short
    rcases short with ⟨rfl, rfl⟩ | ⟨rfl, rfl⟩ | ⟨rfl, rfl⟩ | ⟨rfl, rfl⟩ | ⟨rfl, rfl⟩ | ⟨rfl, rfl⟩ |
      ⟨rfl, rfl⟩
    all_goals simp [readEscape]
  · exact .inr (.inr code)

theorem hexDigit_isPlain {n : Nat} (h : n < 16) : IsPlain (hexDigit n) ∧ hexDigit n ≠ '%' := by
  have all : ∀ n < 16, (hexDigit n ≠ '"' ∧ hexDigit n ≠ '\\' ∧ hexDigit n ≠ '\n' ∧
      hexDigit n ≠ '\r') ∧ hexDigit n ≠ '%' := by
    decide
  exact all n h

theorem hexValue?_hexDigit {n : Nat} (h : n < 16) : hexValue? (hexDigit n) = some n := by
  have all : ∀ n < 16, hexValue? (hexDigit n) = some n := by decide
  exact all n h

theorem readEscape_code {c : Char} (h : c.toNat < 0x20) (cs : List Char) :
    readEscape ('u' :: '0' :: '0' :: hexDigit (c.toNat / 16) :: hexDigit (c.toNat % 16) :: cs) =
      some ([c], cs) := by
  have high := hexValue?_hexDigit (n := c.toNat / 16) (by omega)
  have low := hexValue?_hexDigit (n := c.toNat % 16) (by omega)
  have number : hexNumber? ['0', '0', hexDigit (c.toNat / 16), hexDigit (c.toNat % 16)] =
      some c.toNat := by
    have zero : hexValue? '0' = some 0 := by decide
    simp only [hexNumber?, List.foldlM_cons, List.foldlM_nil, zero, high, low, Option.map_some,
      Option.bind_eq_bind, Option.bind_some, Option.pure_def, Option.some.injEq]
    omega
  have valid : c.toNat.isValidChar := c.valid
  have surrogate : ¬(0xd800 ≤ c.toNat ∧ c.toNat < 0xdc00) := by omega
  simp [readEscape, readCode, readHex, number, readSurrogates, surrogate, valid, Char.ofNat_toNat]

theorem readBody_encode (start text rest : List Char) :
    readBody '"' start (encode text ++ '"' :: rest) = .ok (text, rest) := by
  induction text with
  | nil =>
    rw [encode_nil, List.nil_append, readBody]
    simp
  | cons c text ih =>
    have escaped (code : List Char) (h : readEscape (code ++ (encode text ++ '"' :: rest)) =
        some ([c], encode text ++ '"' :: rest)) :
        readBody '"' start ('\\' :: (code ++ (encode text ++ '"' :: rest))) =
          .ok (c :: text, rest) := by
      rw [readBody, if_neg (by decide), if_pos rfl]
      split
      next none => rw [h] at none; cases none
      next out behind some =>
        rw [h] at some
        obtain ⟨rfl, rfl⟩ := Prod.mk.inj (Option.some.inj some)
        rw [ih]
        rfl
    rw [encode_cons, List.append_assoc]
    rcases encodeChar_cases c with ⟨same, quote, backslash, lineFeed, carriageReturn⟩ |
      ⟨d, same, -, reads⟩ | ⟨same, control⟩
    · rw [same, List.singleton_append, readBody, if_neg quote, if_neg backslash,
        if_neg (by simp), if_neg (by simp [lineFeed, carriageReturn]), ih]
      rfl
    · rw [same]
      exact escaped [d] (reads _)
    · rw [same]
      exact escaped ['u', '0', '0', hexDigit (c.toNat / 16), hexDigit (c.toNat % 16)]
        (readEscape_code control _)

theorem isQuote_cases {c : Char} (h : isQuote c = true) : c = '\x27' ∨ c = '"' ∨ c = '\x60' := by
  simpa [isQuote, or_assoc] using h

theorem isQuote_ne {c : Char} (h : isQuote c = true) : c ≠ '\\' := by
  rintro rfl
  exact absurd h (by decide)

theorem skip_char {c : Char} {cs : List Char} (line : c = '/' → cs.head? ≠ some '/')
    (block : c = '/' → cs.head? ≠ some '*') :
    skip (c :: cs) = if isWhiteSpace c then skip cs else .ok (c :: cs) := by
  conv => lhs; unfold skip skipFrom
  split <;> grind [skip]

theorem readNextText_quote {quote : Char} (h : isQuote quote = true) (cs : List Char) :
    readNextText (quote :: cs) = readBody quote (quote :: cs) cs := by
  have starts : skip (quote :: cs) = .ok (quote :: cs) := by
    rcases isQuote_cases h with rfl | rfl | rfl <;> rfl
  rw [readNextText, starts]
  simp only [bind, Except.bind, readText, h, if_true]

theorem readChain_end {acc cs rest : List Char} (skipped : skip cs = .ok rest)
    (plus : rest.head? ≠ some '+') : readChain acc cs = .ok (acc, rest) := by
  rw [readChain]
  split
  next failed => rw [skipped] at failed; cases failed
  next found =>
    rw [skipped] at found
    exact absurd (congrArg List.head? (Except.ok.inj found)) plus
  next found =>
    rw [skipped] at found
    rw [Except.ok.inj found]

theorem readChain_plus {acc cs rest more behind : List Char} (skipped : skip cs = .ok ('+' :: rest))
    (read : readNextText rest = .ok (more, behind)) :
    readChain acc cs = readChain (acc ++ more) behind := by
  rw [readChain]
  split
  next failed => rw [skipped] at failed; cases failed
  next found =>
    rw [skipped] at found
    obtain rfl := (List.cons.inj (Except.ok.inj found)).2
    split
    next failed => rw [read] at failed; cases failed
    next found =>
      rw [read] at found
      obtain ⟨rfl, rfl⟩ := Prod.mk.inj (Except.ok.inj found)
      rfl
  next other found =>
    rw [skipped] at found
    exact absurd (Except.ok.inj found).symm (other _)

theorem readValue_of_readBody {quote : Char} (h : isQuote quote = true)
    {cs out rest behind : List Char} (read : readBody quote (quote :: cs) cs = .ok (out, rest))
    (skipped : skip rest = .ok behind) (plus : behind.head? ≠ some '+') :
    readValue (quote :: cs) = .ok (out, behind) := by
  rw [readValue, readNextText_quote h, read]
  simp only [bind, Except.bind, readChain_end skipped plus]

theorem parseValue_of_readBody {quote : Char} (h : isQuote quote = true) {cs out : List Char}
    (read : readBody quote (quote :: cs) cs = .ok (out, [])) :
    parseValue (String.ofList (quote :: cs)) = .ok (String.ofList out) := by
  rw [parseValue, String.toList_ofList, readValue_of_readBody h read rfl (by decide)]
  rfl

theorem parseValue_of_fault {quote : Char} (h : isQuote quote = true) {cs : List Char}
    {fault : Fault} (read : readBody quote (quote :: cs) cs = .error fault) :
    parseValue (String.ofList (quote :: cs)) = .error (fault.locate (quote :: cs)) := by
  have whole : readValue (quote :: cs) = .error fault := by
    rw [readValue, readNextText_quote h, read]
    rfl
  rw [parseValue, String.toList_ofList, whole]
  rfl

theorem parseValue_quote (text : List Char) :
    parseValue (String.ofList (quoteChars text)) = .ok (String.ofList text) :=
  parseValue_of_readBody rfl (readBody_encode (quoteChars text) text [])

theorem readValue_quote (text : List Char) {rest behind : List Char}
    (skipped : skip rest = .ok behind) (plus : behind.head? ≠ some '+') :
    readValue (quoteChars text ++ rest) = .ok (text, behind) := by
  rw [quoteChars, List.append_assoc, List.cons_append, List.singleton_append]
  exact readValue_of_readBody rfl (readBody_encode _ text rest) skipped plus

theorem parseKey_quote (text : List Char) :
    parseKey (String.ofList (quoteChars text)) = .ok (.plain (String.ofList text)) := by
  have value : readValue (quoteChars text) = .ok (text, []) := by
    rw [← List.append_nil (quoteChars text)]
    exact readValue_quote text rfl (by decide)
  have starts : skip (quoteChars text) = .ok (quoteChars text) := rfl
  have word : (quoteChars text).head? ≠ some '{' := by simp [quoteChars]
  rw [parseKey, String.toList_ofList, readKey, starts]
  simp only [bind, Except.bind, if_neg word, value]
  rfl

section

variable {α : Type} {close : Char} {item : List Char → Except Fault (Reading α)}
  {shorter : ∀ {cs rest : List Char} {a : α}, item cs = .ok (a, rest) → rest.length < cs.length}
  {cs first behind rest : List Char} {a : α}

theorem readItems_close (skipped : skip cs = .ok (close :: rest)) :
    readItems close item shorter cs = .ok ([], rest) := by
  rw [readItems]
  split
  next failed => rw [skipped] at failed; cases failed
  next found =>
    rw [skipped] at found
    obtain rfl := Except.ok.inj found
    rw [if_pos List.head?_cons, List.tail_cons]

theorem readItems_item {c : Char} (skipped : skip cs = .ok first)
    (opens : first.head? ≠ some close) (read : item first = .ok (a, behind))
    (ends : skip behind = .ok (c :: rest)) :
    readItems close item shorter cs =
      if c = ',' then (readItems close item shorter rest).map fun (more, rest) => (a :: more, rest)
      else if c = close then .ok ([a], rest)
      else .error (.unexpected (c :: rest)) := by
  rw [readItems]
  split
  next failed => rw [skipped] at failed; cases failed
  next found =>
    rw [skipped] at found
    obtain rfl := Except.ok.inj found
    rw [if_neg opens]
    split
    next failed => rw [read] at failed; cases failed
    next found =>
      rw [read] at found
      obtain ⟨rfl, rfl⟩ := Prod.mk.inj (Except.ok.inj found)
      split
      next failed => rw [ends] at failed; cases failed
      next found => rw [ends] at found; cases found
      next found =>
        rw [ends] at found
        obtain ⟨rfl, rfl⟩ := List.cons.inj (Except.ok.inj found)
        rfl

end

theorem readItems_texts (text : String) (texts : List String) :
    readItems ']' readValue length_readValue
        (quoteChars text.toList ++ Value.compactItems (texts.map Value.ofText)) =
      .ok ((text :: texts).map String.toList, []) := by
  have starts (text rest : List Char) :
      skip (quoteChars text ++ rest) = .ok (quoteChars text ++ rest) := rfl
  have opens (text rest : List Char) : (quoteChars text ++ rest).head? ≠ some ']' := by
    simp [quoteChars]
  induction texts generalizing text with
  | nil =>
    have closing : skip [']'] = .ok [']'] := rfl
    have item := readValue_quote text.toList closing (by decide)
    exact readItems_item (starts _ _) (opens _ _) item rfl
  | cons next texts ih =>
    have comma (rest : List Char) : skip (',' :: rest) = .ok (',' :: rest) := rfl
    have item := readValue_quote text.toList (comma (quoteChars next.toList ++
      Value.compactItems (texts.map Value.ofText))) (by simp)
    refine (readItems_item (starts _ _) (opens _ _) item (comma _)).trans ?_
    rw [if_pos rfl, ih next]
    rfl

theorem readList_ofTexts (texts : List String) :
    readList (Value.ofTexts texts).compactChars = .ok (texts.map String.toList, []) := by
  have opens (rest : List Char) : expect '[' ('[' :: rest) = .ok rest := rfl
  cases texts with
  | nil => exact readItems_close rfl
  | cons text texts => exact readItems_texts text texts

/-- A text reads back from between quotes, as a value and as a key, and so do all messages from the list
that the script of a catalog assigns. -/
theorem quoted_read_back :
    (∀ text : String,
      parseValue (quote text) = .ok text ∧ parseKey (quote text) = .ok (.plain text)) ∧
    ∀ (catalog : Catalog) (globalName : String), ∃ list : String,
      catalog.script globalName = "globalThis." ++ globalName ++ "=" ++ list ++ ";" ∧
        readList list.toList = .ok (catalog.messages.map String.toList, []) := by
  refine ⟨fun text => ?_, fun catalog globalName => ⟨catalog.messagesJson.compact, rfl, ?_⟩⟩
  · have value := parseValue_quote text.toList
    have key := parseKey_quote text.toList
    rw [String.ofList_toList] at value key
    exact ⟨value, key⟩
  · rw [Value.compact, String.toList_ofList]
    exact readList_ofTexts catalog.messages

end BundlePrep.Message
