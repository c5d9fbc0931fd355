import BundlePrep.Proofs.Message.Moved
import BundlePrep.Proofs.Message.Numbering

/-!
# What becomes of the messages in a production build

In transformed code every placeholder gives way to its number. The message behind it becomes `null`
as a whole exactly if a comma with nothing but white space around it separates the two and the
message is one text, of the kind the post-processor takes and without the opening of an
interpolation. Of a longer chain of texts only the first becomes `null`, and any other message is
left as it is.
-/

set_option autoImplicit false

namespace BundlePrep.Message

open BundlePrep.Json BundlePrep.Script BundlePrep.Text

/-- A message that the post-processor takes as a whole, and blanks. -/
def Blankable (separator message : List Char) : Prop :=
  Separates separator ∧
    (∃ quote body, message = quote :: (body ++ [quote]) ∧ isQuote quote = true ∧ Body quote body) ∧
      occursIn ['$', '{'] message = false

structure Cut.Placed (numbers : Numbers) (moduleId : String) (c : Cut) : Prop where
  key : ∃ key number, c.key = quoteChars (placeholder c.flavor moduleId key).toList ∧
    numbers.number? (placeholder c.flavor moduleId key) = some number
  separator : ∃ a b, c.separator = a ++ ',' :: b ∧ Leads a ∧ Leads b
  message : ∃ quote cs, c.message = quote :: cs ∧ isQuote quote = true ∧ closes quote cs = true

def CalmBetween (pending last : List Char) : List Cut → Prop
  | [] => Calm (pending ++ last)
  | c :: cs => Calm (pending ++ c.before) ∧ CalmBetween (c.separator ++ c.message) last cs

theorem ne_null_of_isQuote {quote : Char} (h : isQuote quote = true) (cs : List Char) :
    quote :: cs ≠ "null".toList := by
  intro same
  have letter : "null".toList = ['n', 'u', 'l', 'l'] := by decide
  rw [letter] at same
  rw [(List.cons.inj same).1] at h
  exact absurd h (by decide)

theorem Blankable.message? {separator message : List Char} (h : Blankable separator message) :
    ∃ q, Message.message? message = some (q, []) ∧ q.text = message := by
  obtain ⟨-, ⟨quote, body, rfl, quoted, reads⟩, -⟩ := h
  refine ⟨⟨quote, body⟩, ?_, rfl⟩
  rw [Message.message?, if_pos quoted, messageBody?_of_body (isQuote_ne quoted) reads]
  rfl

theorem blankable_of_message? {separator message : List Char} {q : Quoted} (hs : Separates separator)
    (h : message? message = some (q, [])) (plain : occursIn ['$', '{'] q.text = false) :
    Blankable separator message := by
  have whole := message?_eq_some h
  rw [List.append_nil] at whole
  subst whole
  refine ⟨hs, ⟨q.quote, q.body, rfl, ?_⟩, plain⟩
  rw [Quoted.text, List.cons_append, message?] at h
  split at h
  next quoted =>
    obtain ⟨⟨body, rest⟩, reads, same⟩ := Option.map_eq_some_iff.1 h
    have eq : body = q.body := congrArg (fun r => r.1.body) same
    exact ⟨quoted, eq ▸ body_of_messageBody? reads⟩
  · cases h

section

variable {numbers : Numbers} {moduleId : String}

theorem inlined_call {c : Cut} (placed : c.Placed numbers moduleId) :
    ∃ key number left,
      c.key = quoteChars (placeholder c.flavor moduleId key).toList ∧
      numbers.number? (placeholder c.flavor moduleId key) = some number ∧
      (∀ between rest, Calm (c.separator ++ (c.message ++ between)) → AtQuote rest →
        inlined numbers .production (c.key ++ (c.separator ++ (c.message ++ (between ++ rest)))) =
          Nat.toDigits 10 number ++
            (c.separator ++ (left ++ (between ++ inlined numbers .production rest)))) ∧
      (c.flavor = .blank → (left = "null".toList ↔ Blankable c.separator c.message)) := by
  obtain ⟨key, number, keyText, numbered⟩ := placed.key
  obtain ⟨quote, cs, message, quoted, closed⟩ := placed.message
  have notNull : c.message ≠ "null".toList := by
    rw [message]
    exact ne_null_of_isQuote quoted cs
  have kept (between rest : List Char) (calm : Calm (c.separator ++ (c.message ++ between)))
      (behind : AtQuote rest) :
      inlined numbers .production (c.separator ++ (c.message ++ (between ++ rest))) =
        c.separator ++ (c.message ++ (between ++ inlined numbers .production rest)) := by
    have all := inlined_calm numbers .production calm behind
    simpa only [List.append_assoc] using all
  refine ⟨key, number, ?_⟩
  by_cases separates : Separates c.separator
  · have found (rest : List Char) : fallback? (c.separator ++ (c.message ++ rest)) =
        (message? c.message).map fun r => (⟨c.separator, r.1⟩, r.2 ++ rest) := by
      have all := fallback?_of_separates separates (isQuote_not_blank quoted) (cs ++ rest)
      have read := message?_append quoted closed rest
      rw [← List.cons_append, ← message] at all
      rw [← message] at read
      rw [all, read, Option.map_map]
      rfl
    cases first : message? c.message with
    | none =>
      refine ⟨c.message, keyText, numbered, ?_, fun _ => ⟨fun null => absurd null notNull, ?_⟩⟩
      · intro between rest calm behind
        rw [keyText, inlined_quote numbered, found, first]
        exact congrArg _ (kept between rest calm behind)
      · intro blankable
        obtain ⟨q, some, -⟩ := blankable.message?
        rw [first] at some
        cases some
    | some r =>
      obtain ⟨q, tail⟩ := r
      have whole := message?_eq_some first
      have after (between rest : List Char) (calm : Calm (c.separator ++ (c.message ++ between)))
          (behind : AtQuote rest) : inlined numbers .production (tail ++ (between ++ rest)) =
            tail ++ (between ++ inlined numbers .production rest) := by
        have calmTail : Calm (tail ++ between) := by
          rw [whole] at calm
          simp only [List.append_assoc] at calm
          exact calm.of_append_right.of_append_right
        have all := inlined_calm numbers .production calmTail behind
        simpa only [List.append_assoc] using all
      by_cases blanked : blanks .production (placeholder c.flavor moduleId key) q = true
      · refine ⟨"null".toList ++ tail, keyText, numbered, ?_, fun _ => ⟨?_, ?_⟩⟩
        · intro between rest calm behind
          rw [keyText, inlined_quote numbered, found, first]
          simp [blanked, after between rest calm behind]
        · intro null
          have none : tail = [] := by
            have := congrArg List.length null
            rw [List.length_append] at this
            exact List.length_eq_zero_iff.1 (by omega)
          subst none
          refine blankable_of_message? separates first ?_
          simp only [blanks, Bool.and_eq_true, Bool.not_eq_true'] at blanked
          exact blanked.2
        · intro blankable
          obtain ⟨q', some, -⟩ := blankable.message?
          rw [first] at some
          obtain ⟨rfl, rfl⟩ := Prod.mk.inj (Option.some.inj some)
          rw [List.append_nil]
      · refine ⟨c.message, keyText, numbered, ?_, fun blank =>
          ⟨fun null => absurd null notNull, ?_⟩⟩
        · intro between rest calm behind
          rw [keyText, inlined_quote numbered, found, first]
          simp [blanked, after between rest calm behind, whole]
        · intro blankable
          obtain ⟨q', some, same⟩ := blankable.message?
          rw [first] at some
          obtain ⟨rfl, rfl⟩ := Prod.mk.inj (Option.some.inj some)
          have all : blanks .production (placeholder c.flavor moduleId key) q = true := by
            rw [blanks, ofPlaceholder?_placeholder, blank, same, blankable.2.2]
            rfl
          exact absurd all blanked
  · obtain ⟨a, b, split, leadsA, leadsB⟩ := placed.separator
    have none (rest : List Char) : fallback? (c.separator ++ (c.message ++ rest)) = none := by
      have all := fallback?_eq_none leadsA leadsB (split ▸ separates) (c.message ++ rest)
      rwa [← split] at all
    refine ⟨c.message, keyText, numbered, ?_, fun _ => ⟨fun null => absurd null notNull, ?_⟩⟩
    · intro between rest calm behind
      rw [keyText, inlined_quote numbered, none]
      exact congrArg _ (kept between rest calm behind)
    · exact fun blankable => absurd blankable.1 separates

/-! ## All calls of a text -/

theorem calmBetween_append {pending last : List Char} {front back : List Cut} {c : Cut}
    (h : CalmBetween pending last (front ++ c :: back)) :
    CalmBetween pending c.before front ∧ CalmBetween (c.separator ++ c.message) last back := by
  induction front generalizing pending with
  | nil => exact h
  | cons d front ih => exact ⟨⟨h.1, (ih h.2).1⟩, (ih h.2).2⟩

theorem Cut.Placed.atQuote {c : Cut} (placed : c.Placed numbers moduleId) (rest : List Char) :
    AtQuote (c.key ++ rest) := by
  obtain ⟨key, number, keyText, -⟩ := placed.key
  rw [keyText, quoteChars]
  exact .inr rfl

theorem exists_between {pending last : List Char} {cuts : List Cut}
    (calm : CalmBetween pending last cuts) (placed : ∀ c ∈ cuts, c.Placed numbers moduleId)
    {rest : List Char} (behind : AtQuote rest) :
    ∃ between more, cuts.flatMap Cut.text ++ (last ++ rest) = between ++ more ∧
      AtQuote more ∧ Calm (pending ++ between) := by
  cases cuts with
  | nil => exact ⟨last, rest, rfl, behind, calm⟩
  | cons c cuts =>
    refine ⟨c.before, c.key ++ (c.separator ++ (c.message ++ (cuts.flatMap Cut.text ++
      (last ++ rest)))), ?_, (placed c (by simp)).atQuote _, calm.1⟩
    simp [Cut.text]

theorem inlined_append {pending last : List Char} {cuts : List Cut}
    (calm : CalmBetween pending last cuts) (placed : ∀ c ∈ cuts, c.Placed numbers moduleId)
    {rest : List Char} (behind : AtQuote rest) :
    inlined numbers .production (pending ++ (cuts.flatMap Cut.text ++ (last ++ rest))) =
      inlined numbers .production (pending ++ (cuts.flatMap Cut.text ++ last)) ++
        inlined numbers .production rest := by
  induction cuts generalizing pending with
  | nil =>
    simp only [List.flatMap_nil, List.nil_append, ← List.append_assoc]
    rw [inlined_calm numbers .production calm behind, inlined_of_calm numbers .production calm]
  | cons c cuts ih =>
    obtain ⟨before, calm⟩ := calm
    have further := ih calm fun d mem => placed d (by simp [mem])
    obtain ⟨key, number, left, -, -, reads, -⟩ := inlined_call (placed c (by simp))
    -- What follows the message is the same in both texts but for the end.
    have step {x : List Char} (hx : AtQuote x) : ∃ z,
        inlined numbers .production (c.separator ++ c.message ++
            (cuts.flatMap Cut.text ++ (last ++ x))) = c.separator ++ c.message ++ z ∧
        inlined numbers .production (pending ++ ((c :: cuts).flatMap Cut.text ++ (last ++ x))) =
          pending ++ (c.before ++ (Nat.toDigits 10 number ++ (c.separator ++ (left ++ z)))) := by
      obtain ⟨between, more, split, atQuote, calmMore⟩ :=
        exists_between calm (fun d mem => placed d (by simp [mem])) hx
      refine ⟨between ++ inlined numbers .production more, ?_, ?_⟩
      · have all := inlined_calm numbers .production calmMore atQuote
        rw [split, ← List.append_assoc, all, List.append_assoc]
      · have text : pending ++ ((c :: cuts).flatMap Cut.text ++ (last ++ x)) =
            pending ++ c.before ++ (c.key ++ (c.separator ++ (c.message ++ (between ++ more)))) := by
          rw [← split]
          simp [Cut.text]
        rw [List.append_assoc] at calmMore
        rw [text, inlined_calm numbers .production before ((placed c (by simp)).atQuote _),
          reads between more calmMore atQuote]
        simp only [List.append_assoc]
    obtain ⟨z, first, whole⟩ := step behind
    obtain ⟨z', second, alone⟩ := step atQuote_nil
    rw [List.append_nil] at second alone
    have same : z = z' ++ inlined numbers .production rest := by
      rw [first, second, List.append_assoc (c.separator ++ c.message)] at further
      exact List.append_cancel_left further
    rw [whole, alone, same]
    simp only [List.append_assoc]

theorem inlined_around {last : List Char} {front back : List Cut} {c : Cut}
    (calm : CalmBetween [] last (front ++ c :: back))
    (placed : ∀ d ∈ front ++ c :: back, d.Placed numbers moduleId) :
    ∃ key number left,
      c.key = quoteChars (placeholder c.flavor moduleId key).toList ∧
      numbers.number? (placeholder c.flavor moduleId key) = some number ∧
      inlined numbers .production ((front ++ c :: back).flatMap Cut.text ++ last) =
        inlined numbers .production (front.flatMap Cut.text ++ c.before) ++
          (Nat.toDigits 10 number ++ (c.separator ++ (left ++
            inlined numbers .production (back.flatMap Cut.text ++ last)))) ∧
      (c.flavor = .blank → (left = "null".toList ↔ Blankable c.separator c.message)) := by
  obtain ⟨calmFront, calmBack⟩ := calmBetween_append calm
  have own := placed c (by simp)
  obtain ⟨key, number, left, keyText, numbered, reads, blanked⟩ := inlined_call own
  refine ⟨key, number, left, keyText, numbered, ?_, blanked⟩
  obtain ⟨between, more, split, atQuote, calmMore⟩ :=
    exists_between calmBack (fun d mem => placed d (by simp [mem])) atQuote_nil
  rw [List.append_nil] at split
  have calmBetween : Calm between := Calm.of_append_right calmMore
  rw [List.append_assoc] at calmMore
  have apart := inlined_append calmFront (fun d mem => placed d (by simp [mem]))
    (own.atQuote (c.separator ++ (c.message ++ (back.flatMap Cut.text ++ last))))
  rw [List.nil_append, List.nil_append, split, reads between more calmMore atQuote,
    ← inlined_calm numbers .production calmBetween atQuote, ← split] at apart
  rw [← apart]
  simp [Cut.text]

end

end BundlePrep.Message
