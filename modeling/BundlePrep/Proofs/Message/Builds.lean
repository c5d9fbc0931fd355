import BundlePrep.Proofs.Message.Replacing

/-!
# Two builds of the same code

Whatever numbers there are, both builds find the same placeholders in the same places, since the
code alone is looked at. A build that preserves messages changes the placeholders that have numbers.
A production build changes messages besides, each right behind a placeholder whose message it may
blank.
-/

set_option autoImplicit false

namespace BundlePrep.Message

open BundlePrep.Text

/-! ## How a placeholder begins -/

theorem readBody_behind {quote : Char} (plain : quote ≠ '\x60') {letters : List Char}
    (inside : ∀ c ∈ letters, c ≠ quote ∧ c ≠ '\\' ∧ c ≠ '\n' ∧ c ≠ '\r') (start cs : List Char) :
    readBody quote start (letters ++ cs) =
      (readBody quote start cs).map fun (more, rest) => (letters ++ more, rest) := by
  induction letters with
  | nil =>
    rw [List.nil_append]
    cases readBody quote start cs <;> rfl
  | cons c letters ih =>
    obtain ⟨other, backslash, lineFeed, carriageReturn⟩ := inside c (by simp)
    rw [List.cons_append, readBody_plain other backslash lineFeed carriageReturn plain,
      ih fun d mem => inside d (by simp [mem])]
    cases readBody quote start cs <;> rfl

theorem prefix_of_readChain {acc cs out rest : List Char}
    (h : readChain acc cs = .ok (out, rest)) : acc <+: out := by
  fun_induction readChain acc cs with
  | case1 => cases h
  | case2 => cases h
  | case3 acc cs rest' _ more rest'' _ ih => exact (List.prefix_append acc more).trans (ih h)
  | case4 =>
    obtain ⟨rfl, -⟩ := Prod.mk.inj (Except.ok.inj h)
    exact List.prefix_refl _

theorem readValue_of_parseValue {cs : List Char} {value : String}
    (h : parseValue (String.ofList cs) = .ok value) :
    ∃ rest, readValue cs = .ok (value.toList, rest) := by
  rw [parseValue, String.toList_ofList] at h
  cases read : readValue cs with
  | error fault => simp [read, bind, Except.bind, Except.map, Except.mapError] at h
  | ok first =>
    obtain ⟨out, rest⟩ := first
    have ends : finish (out, rest) = .ok value.toList := by
      cases last : finish (out, rest) with
      | error fault => simp [read, last, bind, Except.bind, Except.map, Except.mapError] at h
      | ok out' =>
        simp only [read, last, bind, Except.bind, Except.map, Except.mapError, Except.ok.injEq] at h
        rw [← h, String.toList_ofList]
    rw [finish] at ends
    cases skipped : skip rest with
    | error fault => simp [skipped, bind, Except.bind] at ends
    | ok behind =>
      cases behind with
      | nil =>
        simp only [skipped, bind, Except.bind, pure, Except.pure, Except.ok.injEq] at ends
        exact ⟨rest, by rw [ends]⟩
      | cons c behind => simp [skipped, bind, Except.bind] at ends

theorem prefix_of_parseValue {quote : Char} (plain : quote = '"' ∨ quote = '\x27')
    {letters cs : List Char} {value : String}
    (inside : ∀ c ∈ letters, c ≠ quote ∧ c ≠ '\\' ∧ c ≠ '\n' ∧ c ≠ '\r')
    (parsed : parseValue (String.ofList (quote :: (letters ++ cs))) = .ok value) :
    letters <+: value.toList := by
  have straight : quote ≠ '\x60' := by rcases plain with rfl | rfl <;> decide
  obtain ⟨rest, reads⟩ := readValue_of_parseValue parsed
  rw [readValue, readNextText_quote (isQuote_of_plain plain), readBody_behind straight inside]
    at reads
  cases body : readBody quote (quote :: (letters ++ cs)) cs with
  | error fault => simp [body, bind, Except.bind, Except.map] at reads
  | ok first =>
    obtain ⟨more, behind⟩ := first
    simp only [body, bind, Except.bind, Except.map] at reads
    exact (List.prefix_append letters more).trans (prefix_of_readChain reads)

theorem ofPlaceholder?_eq_some {text : String} {flavor : Flavor} :
    Flavor.ofPlaceholder? text = some flavor ↔ flavor.opening.toList <+: text.toList := by
  have openings : ¬Flavor.blank.opening.toList <+: Flavor.keep.opening.toList := by decide
  have both (blank : Flavor.blank.opening.toList <+: text.toList)
      (keep : Flavor.keep.opening.toList <+: text.toList) : False :=
    openings (List.prefix_of_prefix_length_le blank keep (by decide))
  simp only [Flavor.ofPlaceholder?, Flavor.all, ← List.isPrefixOf_iff_prefix] at both ⊢
  cases flavor <;> grind [List.find?]

theorem exists_flavor {cs rest : List Char} {q : Quoted} (h : placeholder? cs = some (q, rest)) :
    ∃ flavor : Flavor, flavor.opening.toList <+: q.body ∧
      Flavor.ofPlaceholder? q.value = some flavor := by
  unfold placeholder? at h
  split at h
  · cases h
  next quote cs =>
    split at h
    next plain =>
      obtain ⟨flavor, -, found⟩ := List.exists_of_findSome?_eq_some h
      simp only [Option.bind_eq_bind, Option.bind_eq_some_iff, Option.pure_def] at found
      obtain ⟨inner, dropped, ⟨body, rest'⟩, read, same⟩ := found
      obtain ⟨rfl, rfl⟩ := Prod.mk.inj (Option.some.inj same)
      refine ⟨flavor, List.prefix_append _ _, ofPlaceholder?_eq_some.2 ?_⟩
      have inside : ∀ c ∈ flavor.opening.toList, c ≠ quote ∧ c ≠ '\\' ∧ c ≠ '\n' ∧ c ≠ '\r' := by
        rcases plain with rfl | rfl <;> cases flavor <;> decide
      have shape : (Quoted.mk quote (flavor.opening.toList ++ body)).text =
          quote :: (flavor.opening.toList ++ (body ++ [quote])) := by
        simp [Quoted.text]
      rw [Quoted.value, shape]
      split
      next text parsed => exact prefix_of_parseValue plain inside parsed
      next => simp
    next => cases h

/-! ## Segments -/

/-- Segments of a code: a slot is taken in the first place where one begins, and the next one is
looked for behind it. -/
inductive Slotted : List Char → List Segment → Prop where
  | nil : Slotted [] []
  | char {c : Char} {cs : List Char} {pieces : List Segment} : slot? (c :: cs) = none →
      Slotted cs pieces → Slotted (c :: cs) (.char c :: pieces)
  | slot {slot : Slot} {rest : List Char} {pieces : List Segment} :
      slot? (slot.text ++ rest) = some (slot, rest) → Slotted rest pieces →
      Slotted (slot.text ++ rest) (.slot slot :: pieces)

theorem slotted_segments (code : List Char) : Slotted code (segments code) := by
  fun_induction segments code with
  | case1 cs slot rest found ih =>
    obtain rfl := slot?_eq_some found
    exact .slot found ih
  | case2 => exact .nil
  | case3 c cs none ih => exact .char none ih

theorem Slotted.eq_segments {code : List Char} {pieces : List Segment} (h : Slotted code pieces) :
    pieces = segments code := by
  induction h with
  | nil => rw [segments_nil]
  | char none _ ih => rw [segments_char none, ih]
  | slot found _ ih => rw [segments_slot found, ih]

structure Slot.Taken (slot : Slot) : Prop where
  flavored : ∃ flavor : Flavor, flavor.opening.toList <+: slot.placeholder.body ∧
    Flavor.ofPlaceholder? slot.placeholder.value = some flavor
  separated : ∀ f, slot.fallback = some f → Separates f.comma
  quoted : ∀ f, slot.fallback = some f → isQuote f.message.quote = true

theorem isQuote_of_message? {cs rest : List Char} {q : Quoted}
    (h : message? cs = some (q, rest)) : isQuote q.quote = true := by
  unfold message? at h
  split at h
  · cases h
  · split at h
    next quoted =>
      obtain ⟨_, _, same⟩ := Option.map_eq_some_iff.1 h
      rw [← (Prod.mk.inj same).1]
      exact quoted
    · cases h

theorem taken_of_slot? {cs rest : List Char} {slot : Slot} (h : slot? cs = some (slot, rest)) :
    slot.Taken := by
  refine ⟨?_, fun f => separates_of_slot? h, ?_⟩
  all_goals
    simp only [slot?, Option.bind_eq_bind, Option.bind_eq_some_iff, Option.pure_def] at h
    obtain ⟨⟨q, behind⟩, first, h⟩ := h
  · split at h <;> obtain ⟨rfl, -⟩ := Prod.mk.inj (Option.some.inj h) <;>
      exact exists_flavor first
  · rintro f fallback
    split at h <;> obtain ⟨rfl, -⟩ := Prod.mk.inj (Option.some.inj h) <;> cases fallback
    next found =>
      simp only [fallback?, Option.bind_eq_bind, Option.bind_eq_some_iff, Option.pure_def] at found
      obtain ⟨⟨comma, behindComma⟩, -, ⟨message, behindMessage⟩, second, same⟩ := found
      obtain ⟨rfl, -⟩ := Prod.mk.inj (Option.some.inj same)
      exact isQuote_of_message? second

theorem Slotted.taken {code : List Char} {pieces : List Segment} (h : Slotted code pieces) :
    ∀ slot, .slot slot ∈ pieces → slot.Taken := by
  induction h with
  | nil => exact nofun
  | char _ _ ih => simpa using ih
  | slot found _ ih =>
    intro slot mem
    rcases List.mem_cons.1 mem with same | mem
    · exact Segment.slot.inj same ▸ taken_of_slot? found
    · exact ih slot mem

/-! ## Parts -/

/-- A part of a code: a text that no build touches, a placeholder with the number that is put for
it, or a message that a production build blanks. -/
inductive Fragment where
  | kept (text : List Char)
  | placeholder (q : Quoted) (number : Nat)
  | message (q : Quoted)
  deriving DecidableEq, Repr

namespace Fragment

/-- A part as it stands in the code, -/
@[simp]
def source : Fragment → List Char
  | .kept text => text
  | .placeholder q _ => q.text
  | .message q => q.text

/-- after a build that preserves messages, -/
@[simp]
def preserved : Fragment → List Char
  | .kept text => text
  | .placeholder _ number => Nat.toDigits 10 number
  | .message q => q.text

/-- and after a production build. -/
@[simp]
def produced : Fragment → List Char
  | .kept text => text
  | .placeholder _ number => Nat.toDigits 10 number
  | .message _ => "null".toList

@[simp]
def isPlaceholder : Fragment → Bool
  | .placeholder .. => true
  | _ => false

@[simp]
def isMessage : Fragment → Bool
  | .message _ => true
  | _ => false

end Fragment

def Fallback.parts (f : Fallback) (opened : List Char) : List Fragment :=
  [.kept f.comma,
    if Flavor.blank.opening.toList <+: opened ∧ occursIn ['$', '{'] f.message.text = false then
      .message f.message
    else .kept f.message.text]

def Slot.parts (numbers : Numbers) (slot : Slot) : List Fragment :=
  match numbers.number? slot.placeholder.value with
  | none => [.kept slot.text]
  | some number =>
    .placeholder slot.placeholder number ::
      slot.fallback.elim [] (·.parts slot.placeholder.body)

def Segment.parts (numbers : Numbers) : Segment → List Fragment
  | .char c => [.kept [c]]
  | .slot place => place.parts numbers

/-- The value of a placeholder without a number. -/
def Segment.missing (numbers : Numbers) : Segment → List String
  | .char _ => []
  | .slot place =>
    if numbers.number? place.placeholder.value = none then [place.placeholder.value] else []

/-! ## What each build makes of the parts -/

section

variable {numbers : Numbers} {slot : Slot}

theorem Slot.Taken.blanks_iff (h : slot.Taken) {build : Build} {message : Quoted} :
    blanks build slot.placeholder.value message = true ↔ build = .production ∧
      Flavor.blank.opening.toList <+: slot.placeholder.body ∧
      occursIn ['$', '{'] message.text = false := by
  obtain ⟨flavor, opening, known⟩ := h.flavored
  have own : flavor = .blank ↔ Flavor.blank.opening.toList <+: slot.placeholder.body := by
    constructor
    · rintro rfl
      exact opening
    · intro blank
      cases flavor with
      | blank => rfl
      | keep =>
        exact absurd (List.prefix_of_prefix_length_le blank opening (by decide)) (by decide)
  simp only [blanks, known, Bool.and_eq_true, beq_iff_eq, Option.some.injEq, own,
    Bool.not_eq_true', and_assoc]

theorem Slot.Taken.inlineSlot_eq (h : slot.Taken) :
    inlineSlot numbers .preserving slot = ⟨(slot.parts numbers).flatMap Fragment.preserved,
        (slot.parts numbers).countP Fragment.isPlaceholder, 0,
        Segment.missing numbers (.slot slot)⟩ ∧
      inlineSlot numbers .production slot = ⟨(slot.parts numbers).flatMap Fragment.produced,
        (slot.parts numbers).countP Fragment.isPlaceholder,
        (slot.parts numbers).countP Fragment.isMessage, Segment.missing numbers (.slot slot)⟩ := by
  have preserving (message : Quoted) :
      blanks .preserving slot.placeholder.value message = false :=
    Bool.eq_false_iff.2 fun blank => absurd (h.blanks_iff.1 blank).1 (by decide)
  have production (message : Quoted) :
      blanks .production slot.placeholder.value message =
        decide (Flavor.blank.opening.toList <+: slot.placeholder.body ∧
          occursIn ['$', '{'] message.text = false) := by
    rw [Bool.eq_iff_iff, h.blanks_iff, decide_eq_true_iff]
    simp
  simp only [inlineSlot, Slot.parts, Segment.missing]
  cases known : numbers.number? slot.placeholder.value with
  | none => simp [Inlined.unchanged]
  | some number =>
    cases fallback : slot.fallback with
    | none => simp [numbered, fallback, List.countP_cons]
    | some f =>
      by_cases blank : Flavor.blank.opening.toList <+: slot.placeholder.body ∧
          occursIn ['$', '{'] f.message.text = false
      · simp [numbered, fallback, Fallback.parts, preserving, production, blank, List.countP_cons]
      · simp [numbered, fallback, Fallback.parts, preserving, production, if_neg blank,
          List.countP_cons]

theorem Slot.number?_of_mem {q : Quoted} {number : Nat}
    (mem : .placeholder q number ∈ slot.parts numbers) : numbers.number? q.value = some number := by
  unfold Slot.parts at mem
  split at mem
  · simp at mem
  next known =>
    rcases List.mem_cons.1 mem with same | mem
    · obtain ⟨rfl, rfl⟩ := Fragment.placeholder.inj same
      exact known
    · cases fallback : slot.fallback with
      | none => simp [fallback] at mem
      | some f =>
        rw [fallback, Option.elim_some, Fallback.parts] at mem
        split_ifs at mem <;> simp at mem

theorem Slot.isMessage_of_keep (keep : Flavor.keep.opening.toList <+: slot.placeholder.body) :
    ∀ part ∈ slot.parts numbers, part.isMessage = false := by
  have other : ¬Flavor.blank.opening.toList <+: slot.placeholder.body := fun blank =>
    absurd (List.prefix_of_prefix_length_le blank keep (by decide)) (by decide)
  unfold Slot.parts
  split
  · simp
  · cases fallback : slot.fallback with
    | none => simp
    | some f => simp [Fallback.parts, other]

theorem Slot.source_parts (numbers : Numbers) (slot : Slot) :
    (slot.parts numbers).flatMap Fragment.source = slot.text := by
  unfold Slot.parts
  split
  · simp
  · cases fallback : slot.fallback with
    | none => simp [Slot.text, fallback]
    | some f =>
      simp only [Slot.text, fallback, Option.elim_some, Fallback.parts]
      split_ifs <;> simp

theorem Slot.Taken.behind (h : slot.Taken) {before after : List Fragment} {message : Quoted}
    (cut : slot.parts numbers = before ++ .message message :: after) :
    ∃ number comma, before = [.placeholder slot.placeholder number, .kept comma] ∧
      Separates comma ∧ isQuote message.quote = true ∧
      Flavor.blank.opening.toList <+: slot.placeholder.body := by
  unfold Slot.parts at cut
  split at cut
  · cases before <;> simp at cut
  next number known =>
    cases fallback : slot.fallback with
    | none =>
      rw [fallback] at cut
      cases before <;> simp at cut
    | some f =>
      rw [fallback, Option.elim_some, Fallback.parts] at cut
      split_ifs at cut with blank
      · match before with
        | [] | [_] | [_, _] | _ :: _ :: _ :: _ =>
          simp at cut
          try obtain ⟨rfl, rfl, rfl, -⟩ := cut
          try exact ⟨number, _, rfl, h.separated f fallback, h.quoted f fallback, blank.1⟩
      · match before with
        | [] | [_] | [_, _] | _ :: _ :: _ :: _ => simp at cut

end

variable {numbers : Numbers} {pieces : List Segment}

theorem inlineSegments_parts (taken : ∀ slot, .slot slot ∈ pieces → slot.Taken) :
    inlineSegments numbers .preserving pieces =
        ⟨(pieces.flatMap (Segment.parts numbers)).flatMap Fragment.preserved,
          (pieces.flatMap (Segment.parts numbers)).countP Fragment.isPlaceholder, 0,
          pieces.flatMap (Segment.missing numbers)⟩ ∧
      inlineSegments numbers .production pieces =
        ⟨(pieces.flatMap (Segment.parts numbers)).flatMap Fragment.produced,
          (pieces.flatMap (Segment.parts numbers)).countP Fragment.isPlaceholder,
          (pieces.flatMap (Segment.parts numbers)).countP Fragment.isMessage,
          pieces.flatMap (Segment.missing numbers)⟩ := by
  induction pieces with
  | nil => exact ⟨rfl, rfl⟩
  | cons s pieces ih =>
    have first : inlineSegment numbers .preserving s =
          ⟨(s.parts numbers).flatMap Fragment.preserved,
            (s.parts numbers).countP Fragment.isPlaceholder, 0,
            s.missing numbers⟩ ∧
        inlineSegment numbers .production s =
          ⟨(s.parts numbers).flatMap Fragment.produced,
            (s.parts numbers).countP Fragment.isPlaceholder,
            (s.parts numbers).countP Fragment.isMessage, s.missing numbers⟩ := by
      cases s with
      | char c => exact ⟨rfl, rfl⟩
      | slot slot => exact (taken slot (by simp)).inlineSlot_eq
    obtain ⟨preserving, production⟩ := ih fun slot mem => taken slot (by simp [mem])
    simp only [inlineSegments, List.foldr_cons] at preserving production ⊢
    rw [preserving, production, first.1, first.2]
    simp [Inlined.append]

theorem source_parts (numbers : Numbers) (pieces : List Segment) :
    (pieces.flatMap (Segment.parts numbers)).flatMap Fragment.source =
      pieces.flatMap Segment.text := by
  rw [List.flatMap_assoc]
  refine List.flatMap_congr fun s _ => ?_
  cases s with
  | char c => rfl
  | slot slot => exact slot.source_parts numbers

theorem exists_segment {before after : List Fragment} {part : Fragment}
    (cut : pieces.flatMap (Segment.parts numbers) = before ++ part :: after) :
    ∃ s ∈ pieces, ∃ front inner behind, before = front ++ inner ∧
      s.parts numbers = inner ++ part :: behind := by
  induction pieces generalizing before with
  | nil => simp at cut
  | cons s pieces ih =>
    rw [List.flatMap_cons] at cut
    rcases List.append_eq_append_iff.1 cut with ⟨front, rfl, more⟩ | ⟨behind, own, rest⟩
    · obtain ⟨t, mem, front', inner, behind, rfl, parts⟩ := ih more
      exact ⟨t, by simp [mem], s.parts numbers ++ front', inner, behind, by simp, parts⟩
    · cases behind with
      | nil =>
        obtain ⟨t, mem, front', inner, behind, same, parts⟩ := @ih [] rest.symm
        obtain ⟨rfl, rfl⟩ := List.append_eq_nil_iff.1 same.symm
        exact ⟨t, by simp [mem], before, [], behind, by simp, parts⟩
      | cons p behind =>
        obtain ⟨rfl, -⟩ := List.cons.inj rest
        exact ⟨s, by simp, [], before, behind, rfl, own⟩

/-! ## Both builds -/

/-- What the two builds make of a code, by its parts. -/
structure Builds (numbers : Numbers) (code : List Char) (pieces : List Segment)
    (parts : List Fragment) : Prop where
  source : parts.flatMap Fragment.source = code
  preserving : inlineNumbers numbers .preserving code =
    ⟨parts.flatMap Fragment.preserved, parts.countP Fragment.isPlaceholder, 0,
      pieces.flatMap (Segment.missing numbers)⟩
  production : inlineNumbers numbers .production code =
    ⟨parts.flatMap Fragment.produced, parts.countP Fragment.isPlaceholder,
      parts.countP Fragment.isMessage,
      pieces.flatMap (Segment.missing numbers)⟩
  known : ∀ q number, .placeholder q number ∈ parts → numbers.number? q.value = some number
  behind : ∀ before message after, parts = before ++ .message message :: after →
    isQuote message.quote = true ∧ ∃ front q number comma,
      before = front ++ [.placeholder q number, .kept comma] ∧ Separates comma ∧
      Flavor.blank.opening.toList <+: q.body
  unknown : ∀ slot, .slot slot ∈ pieces → numbers.number? slot.placeholder.value = none →
    Segment.parts numbers (.slot slot) = [.kept slot.text]
  keeping : ∀ slot, .slot slot ∈ pieces → Flavor.keep.opening.toList <+: slot.placeholder.body →
    ∀ part ∈ Segment.parts numbers (.slot slot), part.isMessage = false

/-- The slots of a code are the same for both builds and for all numbers. A build that preserves
messages changes the placeholders with numbers, and a production build changes a message only right
behind one of those that allow it. -/
theorem exists_builds (code : List Char) : ∃ pieces, Slotted code pieces ∧
    (∀ others, Slotted code others → others = pieces) ∧
    ∀ numbers, Builds numbers code pieces (pieces.flatMap (Segment.parts numbers)) := by
  refine ⟨segments code, slotted_segments code, fun _ => Slotted.eq_segments, fun numbers => ?_⟩
  have taken := (slotted_segments code).taken
  obtain ⟨preserving, production⟩ := @inlineSegments_parts numbers _ taken
  exact
    { source := (source_parts numbers _).trans (flatMap_segments code)
      preserving := (inlineNumbers_eq code).trans preserving
      production := (inlineNumbers_eq code).trans production
      known := fun q number mem => by
        obtain ⟨s, -, own⟩ := List.mem_flatMap.1 mem
        cases s with
        | char c => simp [Segment.parts] at own
        | slot slot => exact Slot.number?_of_mem own
      behind := fun before message after cut => by
        obtain ⟨s, mem, front, inner, more, rfl, own⟩ := exists_segment cut
        cases s with
        | char c => cases inner <;> simp [Segment.parts] at own
        | slot slot =>
          obtain ⟨number, comma, rfl, separates, quoted, blank⟩ := (taken slot mem).behind own
          exact ⟨quoted, front, _, number, comma, rfl, separates, blank⟩
      unknown := fun slot _ none => by rw [Segment.parts, Slot.parts, none]
      keeping := fun slot _ keep => Slot.isMessage_of_keep keep }

end BundlePrep.Message
