import BundlePrep.Message.Extract
import BundlePrep.Proofs.Message.Fallback

/-!
# Calls in a text and in its transformed code

The calls of a text cut it into what stands before a key, the key, what separates it from the
message, and the message. The transformed code has the same cuts with quoted placeholders for the
keys; a line ending that stood in a key comes back in front of the next line ending behind it.
-/

set_option autoImplicit false

namespace BundlePrep.Message

open BundlePrep.Json BundlePrep.Script BundlePrep.Text

/-- A call in a text, with what stands between it and the call before. -/
structure Cut where
  flavor : Flavor
  before : List Char
  key : List Char
  separator : List Char
  message : List Char
  deriving DecidableEq, Repr

def Cut.text (c : Cut) : List Char := c.before ++ (c.key ++ (c.separator ++ c.message))

/-- A text that neither begins nor ends with white space. -/
structure Tight (text : List Char) : Prop where
  nonempty : text ≠ []
  head : ∀ c ∈ text.head?, isWhiteSpace c = false
  last : ∀ c ∈ text.getLast?, isWhiteSpace c = false

/-- White space and comments in front of a text that begins with neither. -/
def IsGap (gap rest : List Char) : Prop :=
  ∃ newline legacy pos found,
    skipGap newline legacy .code (gap ++ rest) pos = some found ∧ found.rest = rest

/-- The arguments of a call have the ranges of their tokens, and between them stand white space,
comments and a comma. -/
structure Cut.Sound (c : Cut) : Prop where
  key : Tight c.key
  message : Tight c.message
  starts : Starts c.message
  separator : ∃ a b, c.separator = a ++ ',' :: b ∧ IsGap a [','] ∧ IsGap b c.message

def Cut.call (lines : LineIndex) (front : List Char) (c : Cut) : Call :=
  let key := front ++ c.before
  let separator := key ++ c.key
  let message := separator ++ c.separator
  { flavor := c.flavor
    key := String.ofList c.key
    keyRange := lines.range (byteLength key) (byteLength separator)
    message := String.ofList c.message
    messageRange := lines.range (byteLength message) (byteLength (message ++ c.message)) }

def callsAt (lines : LineIndex) (front : List Char) : List Cut → List Call
  | [] => []
  | c :: cs => c.call lines front :: callsAt lines (front ++ c.text) cs

/-- The calls of a text stand apart in it, in their order. -/
structure Stand (text : List Char) (calls : List Call) (cuts : List Cut) (last : List Char) :
    Prop where
  whole : text = cuts.flatMap Cut.text ++ last
  calls : calls = callsAt (LineIndex.ofText text) [] cuts
  sound : ∀ c ∈ cuts, c.Sound

theorem mem_flavors (flavor : Flavor) : flavor ∈ Flavor.all := by
  cases flavor <;> simp [Flavor.all]

/-- The calls whose keys are replaced. -/
def recorded (dialect : Dialect) (code : String) : List Call :=
  if occursIn Flavor.blank.function.toList code.toList then
    ((Program.parse? dialect code.toList).map (allCalls code.toList)).getD []
  else []

/-- The cuts with new contents for their keys, and the line endings that are owed behind them. -/
def move (debt : List LineEnding) : List (Cut × List Char) → List Cut × List LineEnding
  | [] => ([], debt)
  | (c, content) :: cs =>
    let before := settle debt c.before
    let separator := settle (before.2 ++ endings c.key) c.separator
    let message := settle separator.2 c.message
    let rest := move message.2 cs
    (⟨c.flavor, before.1, content, separator.1, message.1⟩ :: rest.1, rest.2)

/-- What stands behind all cuts, with the line endings that are owed there. -/
def settleLast (debt : List LineEnding) (last : List Char) : List Char :=
  (settle debt last).1 ++ (settle debt last).2.flatMap LineEnding.text

/-! ## Gaps -/

theorem leads_of_gap {gap rest : List Char} (h : IsGap gap rest) : Leads gap := by
  obtain ⟨newline, legacy, pos, found, skipped, same⟩ := h
  have stays {c : Char} {cs : List Char} {pos : Nat} {newline : Bool} {found : Gap}
      (stop : c = ',' ∨ isQuote c = true)
      (skipped : skipGap newline legacy .code (c :: cs) pos = some found) :
      found.rest = c :: cs := by
    have cases : c = ',' ∨ c = '\x27' ∨ c = '"' ∨ c = '\x60' := by
      rcases stop with rfl | quote
      · exact .inl rfl
      · exact .inr (isQuote_cases quote)
    rcases cases with rfl | rfl | rfl | rfl <;>
      · rw [skipGap] at skipped
        · simp [isLineEnd, isBlank] at skipped
          rw [← skipped]
        all_goals simp
  induction gap generalizing newline pos with
  | nil => simp [Leads]
  | cons c gap ih =>
    have longer : c :: (gap ++ rest) ≠ rest := by
      intro same
      have := congrArg List.length same
      simp at this
      omega
    by_cases blank : isWhiteSpace c = true
    · have further : ∃ newline pos,
          skipGap newline legacy .code (gap ++ rest) pos = some found := by
        rw [List.cons_append, skipGap] at skipped
        · split at skipped
          · exact ⟨_, _, skipped⟩
          · split at skipped
            · exact ⟨_, _, skipped⟩
            · rw [← Option.some.inj skipped] at same
              exact absurd same longer
        all_goals
          intros
          subst_vars
          exact absurd blank (by decide)
      obtain ⟨newline, pos, skipped⟩ := further
      intro d mem
      rw [List.dropWhile_cons, if_pos blank] at mem
      exact ih newline pos skipped d mem
    · intro d mem
      rw [List.dropWhile_cons, if_neg blank] at mem
      obtain rfl : c = d := by simpa using mem
      by_contra stop
      rw [not_and_or, not_not, Bool.not_eq_false] at stop
      exact longer ((stays stop skipped).symm.trans same)

/-! ## Replacing the keys -/

theorem Tight.head_ne {text : List Char} (h : Tight text) {c : Char} (blank : isWhiteSpace c = true) :
    text.head? ≠ some c := by
  intro head
  rw [h.head c head] at blank
  cases blank

theorem Tight.last_ne {text : List Char} (h : Tight text) {c : Char} (blank : isWhiteSpace c = true) :
    text.getLast? ≠ some c := by
  intro last
  rw [h.last c last] at blank
  cases blank

def patches (pending : List Char) : List (Cut × List Char) → List Patch
  | [] => []
  | (c, content) :: cs => ⟨pending ++ c.before, c.key, content⟩ :: patches (c.separator ++ c.message) cs

def lastText (pending last : List Char) : List (Cut × List Char) → List Char
  | [] => pending ++ last
  | (c, _) :: cs => lastText (c.separator ++ c.message) last cs

theorem joined_patches (pending last : List Char) (cs : List (Cut × List Char)) :
    joined (lastText pending last cs) (patches pending cs) =
      pending ++ ((cs.map Prod.fst).flatMap Cut.text ++ last) := by
  induction cs generalizing pending with
  | nil => rfl
  | cons c cs ih =>
    rw [patches, lastText, joined, ih]
    simp [Cut.text]

theorem sound_patches {cs : List (Cut × List Char)} (sound : ∀ c ∈ cs, c.1.Sound)
    (pending : List Char) : ∀ p ∈ patches pending cs, p.Sound := by
  induction cs generalizing pending with
  | nil => intro p mem; cases mem
  | cons c cs ih =>
    intro p mem
    rcases List.mem_cons.1 mem with rfl | mem
    · have key := (sound c (by simp)).key
      exact ⟨key.nonempty, key.head_ne (by decide), key.last_ne (by decide)⟩
    · exact ih (fun d inside => sound d (by simp [inside])) _ p mem

theorem ranges_patches {whole last : List Char} (front pending : List Char)
    (cs : List (Cut × List Char))
    (h : whole = front ++ pending ++ ((cs.map Prod.fst).flatMap Cut.text ++ last)) :
    ranges front (patches pending cs) =
      ((callsAt (LineIndex.ofText whole) (front ++ pending) (cs.map Prod.fst)).zip
        (cs.map Prod.snd)).map fun r => (r.1.keyRange, r.2) := by
  induction cs generalizing front pending with
  | nil => rfl
  | cons c cs ih =>
    obtain ⟨c, content⟩ := c
    have rest := ih (front ++ pending ++ c.before ++ c.key) (c.separator ++ c.message)
      (by rw [h]; simp [Cut.text])
    have start : whole = (front ++ pending ++ c.before) ++
        (c.key ++ (c.separator ++ c.message ++ ((cs.map Prod.fst).flatMap Cut.text ++ last))) := by
      rw [h]
      simp [Cut.text]
    have stop : whole = (front ++ pending ++ c.before ++ c.key) ++
        (c.separator ++ c.message ++ ((cs.map Prod.fst).flatMap Cut.text ++ last)) := by
      rw [h]
      simp [Cut.text]
    have first : (LineIndex.ofText whole).range (byteLength (front ++ pending ++ c.before))
        (byteLength (front ++ pending ++ c.before ++ c.key)) =
        ⟨positionOf (front ++ pending ++ c.before),
          positionOf (front ++ pending ++ c.before ++ c.key)⟩ := by
      unfold LineIndex.range
      congr 1
      · conv => lhs; rw [start]
        exact position_append _ _
      · conv => lhs; rw [stop]
        exact position_append _ _
    simp only [patches, ranges, List.map_cons, callsAt, List.zip_cons_cons, Cut.call, first]
    rw [← List.append_assoc front, rest, Cut.text]
    simp only [List.append_assoc]

theorem weave_patches (last : List Char) (debt : List LineEnding) (pending : List Char)
    (cs : List (Cut × List Char)) (sound : ∀ c ∈ cs, c.1.Sound)
    (apart : pending.getLast? ≠ some '\r') :
    weave (lastText pending last cs) debt (patches pending cs) =
      (settle debt pending).1 ++ ((move (settle debt pending).2 cs).1.flatMap Cut.text ++
        settleLast (move (settle debt pending).2 cs).2 last) := by
  have parts (b : List Char) := settle_append debt b fun ends => absurd ends apart
  induction cs generalizing debt pending with
  | nil =>
    rw [patches, lastText, weave, parts]
    simp [move, settleLast]
  | cons c cs ih =>
    obtain ⟨c, content⟩ := c
    have shape := sound (c, content) (by simp)
    have message : c.separator.getLast? = some '\r' → c.message.head? ≠ some '\n' :=
      fun _ => shape.message.head_ne (by decide)
    have ends : (c.separator ++ c.message).getLast? ≠ some '\r' := by
      rw [List.getLast?_append_of_ne_nil _ shape.message.nonempty]
      exact shape.message.last_ne (by decide)
    have rest := ih ((settle debt (pending ++ c.before)).2 ++ endings c.key)
      (c.separator ++ c.message) (fun d mem => sound d (by simp [mem])) ends
      (fun b => settle_append _ b fun last => absurd last ends)
    rw [patches, lastText, weave, rest, settle_append _ c.message message, parts]
    simp [move, Cut.text]

theorem mapM_eq_ok {α β ε : Type} {f : α → Except ε β} {as : List α} {bs : List β}
    (h : as.mapM f = .ok bs) : List.Forall₂ (fun a b => f a = .ok b) as bs := by
  induction as generalizing bs with
  | nil =>
    cases h
    exact .nil
  | cons a as ih =>
    rw [List.mapM_cons] at h
    cases first : f a with
    | error e => simp [first, bind, Except.bind] at h
    | ok b =>
      cases rest : as.mapM f with
      | error e => simp [first, rest, bind, Except.bind] at h
      | ok bs' =>
        simp only [first, rest, bind, Except.bind, pure, Except.pure, Except.ok.injEq] at h
        subst h
        exact .cons first (ih rest)

theorem mapError_eq_ok {α ε ε' : Type} {f : ε → ε'} {x : Except ε α} {a : α}
    (h : x.mapError f = .ok a) : x = .ok a := by
  cases x with
  | error e => cases h
  | ok b => exact congrArg Except.ok (Except.ok.inj h)

theorem entryOf_eq_ok {moduleId : String} {call : Call} {entry : Entry}
    (h : entryOf moduleId call = .ok entry) :
    ∃ key message, parseKey call.key = .ok key ∧ parseValue call.message = .ok message ∧
      entry = .ofCall call.flavor moduleId key message := by
  unfold entryOf at h
  cases key : parseKey call.key with
  | error e => simp [key, Except.mapError, bind, Except.bind] at h
  | ok k =>
    cases message : parseValue call.message with
    | error e => simp [key, message, Except.mapError, bind, Except.bind] at h
    | ok m =>
      simp only [key, message, Except.mapError, bind, Except.bind, pure, Except.pure,
        Except.ok.injEq] at h
      exact ⟨k, m, rfl, rfl, h.symm⟩

theorem extract_eq_ok {dialect : Dialect} {moduleId code : String} {extraction : Extraction}
    (h : extract dialect moduleId code = .ok extraction) :
    List.Forall₂ (fun call entry => entryOf moduleId call = .ok entry) (recorded dialect code)
        extraction.entries ∧
      extraction.code.toList =
        (replaceKeys (.ofText code.toList) ((recorded dialect code).zip extraction.entries)).toText := by
  have untouched : (replaceKeys (.ofText code.toList) []).toText = code.toList :=
    Document.toText_ofText code.toList
  unfold extract at h
  unfold recorded
  by_cases named : occursIn Flavor.blank.function.toList code.toList = true
  · simp only [named, Bool.not_true, Bool.false_eq_true, if_false, if_true] at h ⊢
    cases parsed : Program.parse? dialect code.toList with
    | none => simp [parsed] at h
    | some program =>
      simp only [parsed, Option.map_some, Option.getD_some] at h ⊢
      cases entries : (allCalls code.toList program).mapM (entryOf moduleId) with
      | error e => simp [entries, bind, Except.bind] at h
      | ok found =>
        have each := mapM_eq_ok entries
        simp only [entries, bind, Except.bind] at h
        split at h
        next empty =>
          obtain rfl := List.isEmpty_iff.1 empty
          obtain rfl := Except.ok.inj h
          cases none : allCalls code.toList program with
          | nil => exact ⟨.nil, untouched.symm⟩
          | cons call calls =>
            rw [none] at each
            cases each
        next =>
          obtain rfl := Except.ok.inj h
          exact ⟨each, by rw [String.toList_ofList]⟩
  · simp only [named, Bool.not_false, if_true, Bool.false_eq_true, if_false] at h ⊢
    obtain rfl := Except.ok.inj h
    exact ⟨.nil, untouched.symm⟩

theorem ofCall_of_mem {dialect : Dialect} {moduleId code : String} {extraction : Extraction}
    (h : extract dialect moduleId code = .ok extraction) {entry : Entry}
    (mem : entry ∈ extraction.entries) :
    ∃ flavor key message, entry = .ofCall flavor moduleId key message := by
  have each := (extract_eq_ok h).1
  generalize recorded dialect code = calls at each
  generalize extraction.entries = entries at each mem
  induction each with
  | nil => cases mem
  | cons first _ ih =>
    rcases List.mem_cons.1 mem with rfl | mem
    · obtain ⟨key, message, -, -, same⟩ := entryOf_eq_ok first
      exact ⟨_, key, message, same⟩
    · exact ih mem

/-- The ranges of the keys, with the quoted placeholders of their entries. -/
def replacements (calls : List Call) (entries : List Entry) : List (Range × List Char) :=
  (calls.zip entries).map fun found => (found.1.keyRange, quoteChars found.2.placeholder.toList)

theorem code_woven {dialect : Dialect} {moduleId code : String} {extraction : Extraction}
    (extracted : extract dialect moduleId code = .ok extraction) {last : List Char}
    {ps : List Patch} (sound : ∀ p ∈ ps, p.Sound) (whole : code.toList = joined last ps)
    (places : ranges [] ps = replacements (recorded dialect code) extraction.entries) :
    extraction.code.toList = weave last [] ps := by
  have woven := toText_replaced last ps sound
  rw [← whole, places, replacements, List.foldr_map] at woven
  exact (extract_eq_ok extracted).2.trans woven

end BundlePrep.Message
