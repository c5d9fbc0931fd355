import BundlePrep.Proofs.Message.Escapes
import BundlePrep.Proofs.Message.Slot
import BundlePrep.Proofs.Text.Weave

/-!
# The message behind a placeholder

What the post-processor takes for a message is one quoted text behind a comma with white space
around it. A constant message begins with a quoted text that ends inside the message, whatever
follows it, so a slot takes all of the message, its first text, or nothing of it.
-/

set_option autoImplicit false

namespace BundlePrep.Message

open BundlePrep.Text

/-! ## Bodies of messages -/

/-- What stands between the quotes of a message that the post-processor takes. -/
inductive Body (quote : Char) : List Char → Prop where
  | nil : Body quote []
  | escape {cs : List Char} (c : Char) : Body quote cs → Body quote ('\\' :: c :: cs)
  | plain {c : Char} {cs : List Char} : c ≠ quote → c ≠ '\\' → (c = '\n' → quote = '\x60') →
      Body quote cs → Body quote (c :: cs)

/-- Whether a quote that closes a text stands in it, outside of all escapes. -/
def closes (quote : Char) : List Char → Bool
  | [] => false
  | '\\' :: _ :: cs => closes quote cs
  | c :: cs => c == quote || (c != '\\' && closes quote cs)

theorem messageBody?_plain {quote c : Char} (h : c ≠ '\\') (cs : List Char) :
    messageBody? quote (c :: cs) =
      if c = quote then some ([], cs)
      else if c = '\n' ∧ quote ≠ '\x60' then none
      else (messageBody? quote cs).map fun (body, rest) => (c :: body, rest) := by
  rw [messageBody?]
  · simp [h]
  · rintro d cs' rfl
    exact absurd rfl h

theorem closes_plain {quote c : Char} (h : c ≠ '\\') (cs : List Char) :
    closes quote (c :: cs) = (c == quote || closes quote cs) := by
  have other : (c != '\\') = true := by simpa using h
  rw [closes, other, Bool.true_and]
  rintro d cs' rfl
  exact absurd rfl h

theorem body_of_messageBody? {quote : Char} {cs body rest : List Char}
    (h : messageBody? quote cs = some (body, rest)) : Body quote body := by
  fun_induction messageBody? quote cs generalizing body rest with
  | case1 => cases h
  | case2 c cs ih =>
    obtain ⟨⟨b, r⟩, found, same⟩ := Option.map_eq_some_iff.1 h
    obtain ⟨rfl, rfl⟩ := Prod.mk.inj same
    exact .escape c (ih found)
  | case3 =>
    obtain ⟨rfl, rfl⟩ := Prod.mk.inj (Option.some.inj h)
    exact .nil
  | case4 => cases h
  | case5 c cs _ other allowed ih =>
    obtain ⟨⟨b, r⟩, found, same⟩ := Option.map_eq_some_iff.1 h
    obtain ⟨rfl, rfl⟩ := Prod.mk.inj same
    refine .plain other (fun eq => allowed (.inl eq)) (fun eq => ?_) (ih found)
    by_contra plain
    exact allowed (.inr ⟨eq, plain⟩)

theorem messageBody?_of_body {quote : Char} (hq : quote ≠ '\\') {body : List Char}
    (h : Body quote body) (rest : List Char) :
    messageBody? quote (body ++ quote :: rest) = some (body, rest) := by
  induction h with
  | nil => rw [List.nil_append, messageBody?_plain hq, if_pos rfl]
  | escape c _ ih => rw [List.cons_append, List.cons_append, messageBody?, ih, Option.map_some]
  | plain other backslash lineFeed _ ih =>
    rw [List.cons_append, messageBody?_plain backslash, if_neg other, if_neg, ih, Option.map_some]
    rintro ⟨eq, plain⟩
    exact plain (lineFeed eq)

theorem messageBody?_append {quote : Char} (hq : quote ≠ '\\') {cs : List Char}
    (h : closes quote cs = true) (rest : List Char) :
    messageBody? quote (cs ++ rest) =
      (messageBody? quote cs).map fun (body, behind) => (body, behind ++ rest) := by
  fun_induction closes quote cs with
  | case1 => cases h
  | case2 c cs ih =>
    rw [List.cons_append, List.cons_append, messageBody?, messageBody?, ih h, Option.map_map,
      Option.map_map]
    rfl
  | case3 c cs alone ih =>
    have backslash : c ≠ '\\' := by
      rintro rfl
      simp [hq.symm] at h
    rw [List.cons_append, messageBody?_plain backslash, messageBody?_plain backslash]
    split_ifs with close lineFeed
    · rfl
    · rfl
    · have further : closes quote cs = true := by simpa [close, backslash] using h
      rw [ih further, Option.map_map, Option.map_map]
      rfl

/-! ## Constant messages close -/

/-- A text in which no escape is cut. -/
inductive Whole : List Char → Prop where
  | nil : Whole []
  | escape {cs : List Char} (c : Char) : Whole cs → Whole ('\\' :: c :: cs)
  | plain {c : Char} {cs : List Char} : c ≠ '\\' → Whole cs → Whole (c :: cs)

theorem Whole.append {a b : List Char} (ha : Whole a) (hb : Whole b) : Whole (a ++ b) := by
  induction ha with
  | nil => exact hb
  | escape c _ ih => exact .escape c ih
  | plain h _ ih => exact .plain h ih

theorem whole_of_not_mem {cs : List Char} (h : '\\' ∉ cs) : Whole cs := by
  induction cs with
  | nil => exact .nil
  | cons c cs ih =>
    rw [List.mem_cons, not_or] at h
    exact .plain (Ne.symm h.1) (ih h.2)

theorem closes_of_whole {quote : Char} {a b : List Char} (ha : Whole a)
    (hb : closes quote b = true) : closes quote (a ++ b) = true := by
  induction ha with
  | nil => exact hb
  | escape c _ ih => rwa [List.cons_append, List.cons_append, closes]
  | plain h _ ih =>
    rw [List.cons_append, closes_plain h, ih, Bool.or_true]

theorem readEscape_eq_some {cs out rest : List Char} (h : readEscape cs = some (out, rest)) :
    ∃ c e, cs = c :: (e ++ rest) ∧ Whole e := by
  obtain ⟨e, rfl, escape⟩ := Grammar.escape_of_readEscape h
  cases escape with
  | letter | zero | lineFeed | carriageReturn | other => exact ⟨_, [], rfl, .nil⟩
  | carriageReturnLineFeed => exact ⟨'\r', ['\n'], rfl, .plain (by decide) .nil⟩
  | byte _ number => exact ⟨'x', _, rfl, whole_of_not_mem (not_mem_of_hexNumber? number)⟩
  | code code _ => exact ⟨'u', _, rfl, whole_of_not_mem code.not_mem⟩
  | pair one other _ _ =>
    exact ⟨'u', _, rfl, (whole_of_not_mem one.not_mem).append
      (.escape 'u' (whole_of_not_mem other.not_mem))⟩

theorem closes_of_readBody {quote : Char} (hq : quote ≠ '\\') {start cs out rest : List Char}
    (h : readBody quote start cs = .ok (out, rest)) : closes quote cs = true := by
  fun_induction readBody quote start cs generalizing out rest with
  | case1 => cases h
  | case2 cs =>
    rw [closes_plain hq]
    simp
  | case3 => cases h
  | case4 cs more behind esc other ih =>
    cases found : readBody quote start behind with
    | error e => simp [found, Except.map] at h
    | ok r =>
      obtain ⟨c, e, rfl, whole⟩ := readEscape_eq_some esc
      rw [closes]
      exact closes_of_whole whole (ih found)
  | case5 => cases h
  | case6 => cases h
  | case7 c cs other backslash _ _ ih =>
    cases found : readBody quote start cs with
    | error e => simp [found, Except.map] at h
    | ok r => rw [closes_plain backslash, ih found, Bool.or_true]

def Starts (text : List Char) : Prop := skip text = .ok text

theorem closes_of_parseValue {message : List Char} {value : String} (starts : Starts message)
    (h : parseValue (String.ofList message) = .ok value) :
    ∃ quote cs, message = quote :: cs ∧ isQuote quote = true ∧ closes quote cs = true := by
  rw [parseValue, String.toList_ofList] at h
  cases read : readValue message with
  | error e => simp [read, bind, Except.bind, Except.map, Except.mapError] at h
  | ok r =>
    rw [readValue] at read
    cases first : readNextText message with
    | error e => simp [first, bind, Except.bind] at read
    | ok s =>
      obtain ⟨out, rest⟩ := s
      rw [readNextText, starts] at first
      simp only [bind, Except.bind] at first
      unfold readText at first
      split at first
      · cases first
      · next quote cs =>
        split at first
        next quoted => exact ⟨quote, cs, rfl, quoted, closes_of_readBody (isQuote_ne quoted) first⟩
        · cases first

theorem message?_append {quote : Char} {cs : List Char} (hq : isQuote quote = true)
    (h : closes quote cs = true) (rest : List Char) :
    message? (quote :: cs ++ rest) =
      (message? (quote :: cs)).map fun (message, behind) => (message, behind ++ rest) := by
  rw [List.cons_append, message?, message?, if_pos hq, if_pos hq,
    messageBody?_append (isQuote_ne hq) h, Option.map_map, Option.map_map]
  rfl

/-! ## Separators -/

/-- A comma with white space around it. -/
def Separates (separator : List Char) : Prop :=
  ∃ a b, separator = a ++ ',' :: b ∧ a.all isWhiteSpace = true ∧ b.all isWhiteSpace = true

def Leads (gap : List Char) : Prop :=
  ∀ c ∈ (gap.dropWhile isWhiteSpace).head?, c ≠ ',' ∧ isQuote c = false

theorem dropWhile_of_all {a : List Char} (h : a.all isWhiteSpace = true) (rest : List Char) :
    (a ++ rest).dropWhile isWhiteSpace = rest.dropWhile isWhiteSpace := by
  rw [List.dropWhile_append_of_pos]
  simpa using h

theorem takeWhile_of_all {a : List Char} (h : a.all isWhiteSpace = true) {c : Char}
    (hc : isWhiteSpace c = false) (rest : List Char) :
    (a ++ c :: rest).takeWhile isWhiteSpace = a := by
  rw [List.takeWhile_append_of_pos (by simpa using h), List.takeWhile_cons, hc]
  simp

theorem comma?_of_separates {separator : List Char} (h : Separates separator) {c : Char}
    (hc : isWhiteSpace c = false) (rest : List Char) :
    comma? (separator ++ c :: rest) = some (separator, c :: rest) := by
  obtain ⟨a, b, rfl, ha, hb⟩ := h
  have comma : isWhiteSpace ',' = false := by decide
  have outer : (a ++ ',' :: b ++ c :: rest).dropWhile isWhiteSpace = ',' :: (b ++ c :: rest) := by
    rw [List.append_assoc, dropWhile_of_all ha, List.cons_append, List.dropWhile_cons, comma]
    simp
  have front : (a ++ ',' :: b ++ c :: rest).takeWhile isWhiteSpace = a := by
    rw [List.append_assoc, List.cons_append, takeWhile_of_all ha comma]
  have behind : (b ++ c :: rest).dropWhile isWhiteSpace = c :: rest := by
    rw [dropWhile_of_all hb, List.dropWhile_cons, hc]
    simp
  unfold comma?
  rw [outer]
  simp only [front, behind, takeWhile_of_all hb hc]

theorem separates_of_comma? {cs comma rest : List Char} (h : comma? cs = some (comma, rest)) :
    Separates comma := by
  unfold comma? at h
  split at h
  · next inner _ =>
    obtain ⟨rfl, -⟩ := Prod.mk.inj (Option.some.inj h)
    exact ⟨_, _, rfl, List.all_takeWhile, List.all_takeWhile⟩
  · cases h

theorem separates_of_fallback? {cs rest : List Char} {f : Fallback}
    (h : fallback? cs = some (f, rest)) : Separates f.comma := by
  simp only [fallback?, Option.bind_eq_bind, Option.bind_eq_some_iff, Option.pure_def] at h
  obtain ⟨⟨comma, behind⟩, first, ⟨message, behind'⟩, -, same⟩ := h
  obtain ⟨rfl, -⟩ := Prod.mk.inj (Option.some.inj same)
  exact separates_of_comma? first

theorem Separates.not_quote {separator : List Char} (h : Separates separator) {c : Char}
    (mem : c ∈ separator) : isQuote c = false := by
  obtain ⟨a, b, rfl, ha, hb⟩ := h
  have blank (d : Char) (white : isWhiteSpace d = true) : isQuote d = false := by
    by_contra quoted
    rcases isQuote_cases (Bool.not_eq_false _ ▸ quoted) with rfl | rfl | rfl <;> cases white
  simp only [List.mem_append, List.mem_cons] at mem
  rcases mem with mem | rfl | mem
  · exact blank c (List.all_eq_true.1 ha c mem)
  · rfl
  · exact blank c (List.all_eq_true.1 hb c mem)

theorem fallback?_of_separates {separator : List Char} (h : Separates separator) {c : Char}
    (hc : isWhiteSpace c = false) (rest : List Char) :
    fallback? (separator ++ c :: rest) =
      (message? (c :: rest)).map fun (message, behind) => (⟨separator, message⟩, behind) := by
  rw [fallback?, comma?_of_separates h hc]
  simp only [Option.bind_eq_bind, Option.bind_some]
  cases message? (c :: rest) <;> rfl

theorem dropWhile_of_leads {gap : List Char} {c : Char} {more : List Char}
    (h : gap.dropWhile isWhiteSpace = c :: more) (rest : List Char) :
    (gap ++ rest).dropWhile isWhiteSpace = c :: (more ++ rest) := by
  rw [List.dropWhile_append, h]
  simp

theorem fallback?_eq_none {a b : List Char} (ha : Leads a) (hb : Leads b)
    (h : ¬Separates (a ++ ',' :: b)) (rest : List Char) :
    fallback? (a ++ ',' :: b ++ rest) = none := by
  have comma : isWhiteSpace ',' = false := by decide
  have front : comma? (a ++ ',' :: b ++ rest) = none ∨
      ∃ skipped c more, (c ≠ ',' ∧ isQuote c = false) ∧
        comma? (a ++ ',' :: b ++ rest) = some (skipped, c :: more) := by
    rw [List.append_assoc, List.cons_append]
    cases first : a.dropWhile isWhiteSpace with
    | cons c more =>
      left
      have lead := ha c (by simp [first])
      unfold comma?
      rw [dropWhile_of_leads first]
      split
      next inner eq => exact absurd (List.cons.inj eq).1 lead.1
      · rfl
    | nil =>
      right
      have blank := List.all_eq_true.2 (List.dropWhile_eq_nil_iff.1 first)
      cases second : b.dropWhile isWhiteSpace with
      | nil =>
        have blank' := List.all_eq_true.2 (List.dropWhile_eq_nil_iff.1 second)
        exact absurd ⟨a, b, rfl, blank, blank'⟩ h
      | cons c more =>
        have lead := hb c (by simp [second])
        unfold comma?
        rw [dropWhile_of_all blank, List.dropWhile_cons, comma]
        simp only [Bool.false_eq_true, if_false]
        rw [dropWhile_of_leads second]
        exact ⟨_, c, more ++ rest, lead, rfl⟩
  rcases front with none | ⟨skipped, c, more, lead, some⟩
  · rw [fallback?, none]
    rfl
  · have none : message? (c :: more) = Option.none := by
      rw [message?, lead.2]
      simp
    rw [fallback?, some]
    simp [none]

end BundlePrep.Message
