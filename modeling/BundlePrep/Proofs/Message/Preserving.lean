import BundlePrep.Proofs.Message.Keys
import BundlePrep.Proofs.Message.Moved

/-!
# Builds that keep their messages

Where messages are kept, a build puts the number of each placeholder in its place and leaves the rest
of the code as it is, unless what it takes for the message behind a placeholder reaches into the next
placeholder. A quoted text behind the comma ends in front of it.
-/

set_option autoImplicit false

namespace BundlePrep.Message

open BundlePrep.Json BundlePrep.Script BundlePrep.Text

/-! ## Code around placeholders -/

/-- The entries whose placeholders stand in some code, each with the text behind it. -/
abbrev Stretches := List (Entry × List Char)

/-- The code in which each entry is written in some way. -/
def written (write : Entry → List Char) (stretches : Stretches) : List Char :=
  stretches.flatMap fun (entry, text) => write entry ++ text

/-- The literal that is inserted for a key. -/
def literal (entry : Entry) : List Char := quoteChars entry.placeholder.toList

/-- The number of the message, in decimal digits. -/
def numeral (numbers : Numbers) (entry : Entry) : List Char :=
  ((numbers.number? entry.placeholder).map (Nat.toDigits 10)).getD []

/-- What stands in front of the first key and behind each of them, with the line endings that are
owed there. -/
def around (last : List Char) : List LineEnding → List Patch → List Char × List (List Char)
  | debt, [] => (settleLast debt last, [])
  | debt, p :: ps =>
    let before := settle debt p.before
    let behind := around last (before.2 ++ endings p.removed) ps
    (before.1, behind.1 :: behind.2)

/-- What is taken for a message behind a placeholder does not reach into the next one. -/
def Bounded : Stretches → Prop
  | [] => True
  | (_, text) :: more =>
    (∀ f rest, fallback? (text ++ written literal more) = some (f, rest) →
      written literal more <:+ rest) ∧ Bounded more

/-- A text that begins with a comma among white space and comments, and a quoted text behind it. -/
def Fenced (text : List Char) : Prop :=
  ∃ a b quote cs, text = a ++ ',' :: (b ++ quote :: cs) ∧ IsGap a [','] ∧ IsGap b (quote :: cs) ∧
    isQuote quote = true ∧ closes quote cs = true

structure Entry.Numbered (numbers : Numbers) (e : Entry) : Prop where
  ofCall : ∃ flavor moduleId key, e.placeholder = Message.placeholder flavor moduleId key
  known : ∃ number, numbers.number? e.placeholder = some number

theorem weave_eq (last : List Char) (debt : List LineEnding) {ps : List Patch}
    {entries : List Entry} (h : ps.map Patch.content = entries.map literal) :
    weave last debt ps = (around last debt ps).1 ++
      written literal (entries.zip (around last debt ps).2) := by
  induction ps generalizing debt entries with
  | nil =>
    rw [List.map_nil, eq_comm, List.map_eq_nil_iff] at h
    simp [h, weave, around, settleLast, written]
  | cons p ps ih =>
    obtain ⟨e, entries, rfl, content, rest⟩ := List.map_eq_cons_iff.1 h.symm
    rw [weave, ih _ rest.symm, ← content]
    simp [around, written]

theorem length_around (last : List Char) (debt : List LineEnding) (ps : List Patch) :
    (around last debt ps).2.length = ps.length := by
  induction ps generalizing debt with
  | nil => rfl
  | cons p ps ih => simp [around, ih]

theorem calm_around {last : List Char} (debt : List LineEnding) {ps : List Patch}
    (h : Calm (joined last ps)) :
    ∀ text ∈ (around last debt ps).1 :: (around last debt ps).2, Calm text := by
  induction ps generalizing debt with
  | nil =>
    intro text mem
    rw [List.mem_singleton.1 mem]
    exact h.settleLast debt
  | cons p ps ih =>
    intro text mem
    rcases List.mem_cons.1 mem with rfl | mem
    · exact h.of_append_left.settle debt
    · exact ih _ h.of_append_right.of_append_right text mem

/-! ## Numbers for placeholders -/

section

variable {numbers : Numbers}

theorem scanned_literal {e : Entry} (h : e.Numbered numbers) (rest : List Char) :
    scanned numbers .preserving (literal e ++ rest) =
      match fallback? rest with
      | none => Inlined.append ⟨numeral numbers e, 1, 0, []⟩ (scanned numbers .preserving rest)
      | some (f, behind) =>
        Inlined.append ⟨numeral numbers e ++ (f.comma ++ f.message.text), 1, 0, []⟩
          (scanned numbers .preserving behind) := by
  obtain ⟨flavor, moduleId, key, shape⟩ := h.ofCall
  obtain ⟨number, known⟩ := h.known
  have digits : numeral numbers e = Nat.toDigits 10 number := by
    rw [numeral, known]
    rfl
  rw [shape] at known
  rw [literal, shape, scanned_quote known, digits]
  rfl

theorem atQuote_written (stretches : Stretches) : AtQuote (written literal stretches) := by
  cases stretches with
  | nil => exact atQuote_nil
  | cons s more =>
    refine .inr ?_
    simp [written, literal, quoteChars]

theorem scanned_written {stretches : Stretches} (bounded : Bounded stretches)
    (numbered : ∀ s ∈ stretches, s.1.Numbered numbers) (calm : ∀ s ∈ stretches, Calm s.2)
    {pending : List Char} (first : Calm pending) :
    scanned numbers .preserving (pending ++ written literal stretches) =
      ⟨pending ++ written (numeral numbers) stretches, stretches.length, 0, []⟩ := by
  induction stretches generalizing pending with
  | nil =>
    rw [written, List.flatMap_nil, List.append_nil, scanned_of_calm _ _ first]
    simp [Inlined.unchanged, written]
  | cons s more ih =>
    obtain ⟨e, text⟩ := s
    have own : Calm text := calm (e, text) (by simp)
    have rest {pending : List Char} (first : Calm pending) :=
      ih bounded.2 (fun s mem => numbered s (by simp [mem])) (fun s mem => calm s (by simp [mem]))
        first
    rw [scanned_calm _ _ first (atQuote_written _)]
    have shape (write : Entry → List Char) :
        written write ((e, text) :: more) = write e ++ (text ++ written write more) := by
      simp [written]
    rw [shape, shape, scanned_literal (numbered (e, text) (by simp))]
    split
    next none =>
      rw [rest own]
      simp [Inlined.append, Inlined.unchanged, Nat.add_comm]
    next f behind found =>
      obtain ⟨z, rfl⟩ := bounded.1 f behind found
      have whole := fallback?_eq_some found
      rw [← List.append_assoc] at whole
      obtain rfl := List.append_cancel_right whole
      rw [rest own.of_append_right]
      simp [Inlined.append, Inlined.unchanged, Nat.add_comm]

theorem head_numeral {e : Entry} (h : e.Numbered numbers) {rest more : List Char}
    (same : '"' :: rest = numeral numbers e ++ more) : False := by
  obtain ⟨number, known⟩ := h.known
  rw [numeral, known, Option.map_some, Option.getD_some] at same
  obtain ⟨d, ds, digits⟩ := List.exists_cons_of_ne_nil (Nat.toDigits_ne_nil (n := number) (b := 10))
  rw [digits, List.cons_append] at same
  have digit : d.isDigit = true :=
    Nat.isDigit_of_mem_toDigits (n := number) (by decide) (Nat.le_refl 10) (by simp [digits])
  rw [← (List.cons.inj same).1] at digit
  exact absurd digit (by decide)

theorem bounded_of_inlined {stretches : Stretches}
    (numbered : ∀ s ∈ stretches, s.1.Numbered numbers) (calm : ∀ s ∈ stretches, Calm s.2)
    {pending : List Char} (first : Calm pending)
    (h : (scanned numbers .preserving (pending ++ written literal stretches)).code =
      pending ++ written (numeral numbers) stretches) : Bounded stretches := by
  induction stretches generalizing pending with
  | nil => trivial
  | cons s more ih =>
    obtain ⟨e, text⟩ := s
    have own : Calm text := calm (e, text) (by simp)
    have rest {pending : List Char} (first : Calm pending) :=
      ih (fun s mem => numbered s (by simp [mem]))
        (fun s mem => calm s (by simp [mem])) first
    have shape (write : Entry → List Char) :
        written write ((e, text) :: more) = write e ++ (text ++ written write more) := by
      simp [written]
    rw [scanned_calm _ _ first (atQuote_written _), shape, shape,
      scanned_literal (numbered (e, text) (by simp))] at h
    have tail := List.append_cancel_left (show pending ++ _ = pending ++ _ from h)
    cases found : fallback? (text ++ written literal more) with
    | none =>
      rw [found] at tail
      refine ⟨fun f behind some => absurd (found.symm.trans some) (by simp), rest own ?_⟩
      exact List.append_cancel_left (show numeral numbers e ++ _ = numeral numbers e ++ _ from tail)
    | some r =>
      obtain ⟨f, behind⟩ := r
      rw [found] at tail
      have code : (f.comma ++ f.message.text) ++ (scanned numbers .preserving behind).code =
          text ++ written (numeral numbers) more := by
        have := (show (numeral numbers e ++ (f.comma ++ f.message.text)) ++ _ = _ from tail)
        rw [List.append_assoc] at this
        exact List.append_cancel_left this
      have inside (z : List Char) (cut : text = f.comma ++ f.message.text ++ z)
          (left : behind = z ++ written literal more) : Bounded ((e, text) :: more) := by
        rw [cut, left, List.append_assoc (f.comma ++ f.message.text)] at code
        refine ⟨fun f' behind' some => ?_, rest (cut ▸ own).of_append_right
          (List.append_cancel_left code)⟩
        rw [found] at some
        obtain ⟨rfl, rfl⟩ := Prod.mk.inj (Option.some.inj some)
        exact ⟨z, left.symm⟩
      rcases List.append_eq_append_iff.1 (fallback?_eq_some found) with
        ⟨x, taken, split⟩ | ⟨z, cut, left⟩
      · cases x with
        | nil => exact inside [] (by simp [taken]) split.symm
        | cons c x =>
          -- The message reaches into the next literal, whose quote stays where a digit has to be.
          cases more with
          | nil => cases split
          | cons s more =>
            obtain rfl : c = '"' := by
              have heads := congrArg List.head? split
              simpa [written, literal, quoteChars, eq_comm] using heads
            rw [taken, List.append_assoc] at code
            have quote := List.append_cancel_left code
            rw [written, List.flatMap_cons, List.append_assoc] at quote
            exact (head_numeral (numbered s (by simp)) quote).elim
      · exact inside z cut left

end

/-! ## Quoted texts behind a comma -/

theorem Fenced.suffix {text : List Char} (h : Fenced text) (debt : List LineEnding)
    {rest behind : List Char} {f : Fallback}
    (found : fallback? ((settle debt text).1 ++ rest) = some (f, behind)) : rest <:+ behind := by
  obtain ⟨a, b, quote, cs, rfl, gapA, gapB, quoted, closed⟩ := h
  have lf := (isQuote_ne_newline quoted (.inl rfl)).symm
  have cr := (isQuote_ne_newline quoted (.inr rfl)).symm
  have parts : ∃ owedA owedB owedC, (settle debt (a ++ ',' :: (b ++ quote :: cs))).1 =
      (settle owedA a).1 ++ ',' :: (settle owedB b).1 ++ quote :: (settle owedC cs).1 := by
    rw [settle_append debt (a := a) _ (fun _ => by simp), settle_cons _ (by decide) (by decide),
      settle_append _ (a := b) _ (fun _ => by simpa using lf), settle_cons _ lf cr]
    exact ⟨debt, (settle debt a).2, (settle (settle debt a).2 b).2, by simp⟩
  obtain ⟨owedA, owedB, owedC, settled⟩ := parts
  rw [settled] at found
  by_cases separates : Separates ((settle owedA a).1 ++ ',' :: (settle owedB b).1)
  · have closed' : closes quote (settle owedC cs).1 = true :=
      (closes_settle quoted owedC cs).trans closed
    rw [List.append_assoc, List.cons_append,
      fallback?_of_separates separates (isQuote_not_blank quoted), ← List.cons_append,
      message?_append quoted closed', Option.map_map, Option.map_eq_some_iff] at found
    obtain ⟨⟨q, left⟩, -, same⟩ := found
    exact ⟨left, congrArg Prod.snd same⟩
  · have none := fallback?_eq_none ((leads_of_gap gapA).settle owedA)
      ((leads_of_gap gapB).settle owedB) separates (quote :: (settle owedC cs).1 ++ rest)
    rw [← List.append_assoc, found] at none
    cases none

theorem bounded_of_fenced {last : List Char} (debt : List LineEnding) {ps : List Patch}
    (h : ∀ p ∈ ps, Fenced p.before) (entries : List Entry) :
    Bounded (entries.zip ((around last debt ps).1 :: (around last debt ps).2)) := by
  induction ps generalizing debt entries with
  | nil =>
    cases entries with
    | nil => trivial
    | cons e entries =>
      rw [around, List.zip_cons_cons, List.zip_nil_right]
      exact ⟨fun _ rest _ => List.nil_suffix, trivial⟩
  | cons p ps ih =>
    cases entries with
    | nil => trivial
    | cons e entries =>
      exact ⟨fun _ _ found => (h p (by simp)).suffix debt found,
        ih _ (fun q mem => h q (by simp [mem])) entries⟩

/-! ## Transformed code -/

/-- The keys of a script that are clear of each other cut it, and in its transformed code their
literals stand in the places of the keys. A build that keeps the messages puts the numbers of all
entries for them and leaves every other character as it is exactly if no message reaches into the
next literal; none does where a comma and a quoted text stand in front of each further key. -/
theorem preserving_numbers {dialect : Dialect} {moduleId code : String} {extraction : Extraction}
    {numbers : Numbers} (clean : occursIn marker code.toList = false)
    (extracted : extract dialect moduleId code = .ok extraction)
    (clear : (recorded dialect code).Pairwise fun a b => Clear a.keyRange b.keyRange)
    (known : ∀ e ∈ extraction.entries, ∃ number, numbers.number? e.placeholder = some number) :
    (∃ ps last, KeyCut code.toList (recorded dialect code) extraction.entries ps last) ∧
      ∀ ps last, KeyCut code.toList (recorded dialect code) extraction.entries ps last →
        (∀ p ∈ ps, p.Sound) →
        let first := (around last [] ps).1
        let stretches := extraction.entries.zip (around last [] ps).2
        extraction.code.toList = first ++ written literal stretches ∧
          (inlineNumbers numbers .preserving extraction.code.toList =
              ⟨first ++ written (numeral numbers) stretches, extraction.entries.length, 0, []⟩ ↔
            Bounded stretches) ∧
          ((∀ p ∈ ps.tail, Fenced p.before) → Bounded stretches) := by
  refine ⟨exists_keyCut extracted clear, fun ps last cut sound => ?_⟩
  intro first stretches
  have length := (extract_eq_ok extracted).1.length_eq
  have contents : ps.map Patch.content = extraction.entries.map literal := by
    have places := congrArg (List.map Prod.snd) cut.places
    rw [content_ranges, replacements, List.map_map] at places
    rw [places, ← List.map_snd_zip (Nat.le_of_eq length.symm), List.map_map,
      List.map_snd_zip (Nat.le_of_eq length.symm)]
    rfl
  have whole : extraction.code.toList = first ++ written literal stretches := by
    rw [code_woven extracted sound cut.whole cut.places, weave_eq last [] contents]
  have calm : ∀ text ∈ first :: (around last [] ps).2, Calm text :=
    calm_around [] (cut.whole ▸ calm_iff.2 clean)
  have calmBehind : ∀ s ∈ stretches, Calm s.2 := fun s mem =>
    calm s.2 (List.mem_cons_of_mem _ (List.of_mem_zip mem).2)
  have numbered : ∀ s ∈ stretches, s.1.Numbered numbers := by
    intro s mem
    have inside := (List.of_mem_zip mem).1
    obtain ⟨flavor, key, message, same⟩ := ofCall_of_mem extracted inside
    exact ⟨⟨flavor, moduleId, key.primary, by rw [same]; rfl⟩, known s.1 inside⟩
  have count : stretches.length = extraction.entries.length := by
    have same := congrArg List.length contents
    simp only [List.length_map] at same
    simp [stretches, length_around, same]
  refine ⟨whole, ?_, ?_⟩
  · rw [inlineNumbers_eq, whole]
    constructor
    · intro result
      exact bounded_of_inlined numbered calmBehind (calm first (by simp))
        (congrArg Inlined.code result)
    · intro bounded
      rw [scanned_written bounded numbered calmBehind (calm first (by simp)), count]
  · intro fenced
    cases ps with
    | nil => simp [stretches, around, Bounded]
    | cons p ps => exact bounded_of_fenced _ fenced extraction.entries

/-! ## Two calls -/

def pairScript (first second : String) : String :=
  "import \x7b localize, localize2 \x7d from 'nls';\nlocalize(" ++ first ++ ", 'a');\nlocalize2(" ++
    second ++ ", 'b');"

def pairText : String := pairScript "'\"'" "'k'"

def pairCode : String := pairScript "\"%%NLS:m#\\\"%%\"" "\"%%NLS2:m#k%%\""

def pairCalls : List Call :=
  [⟨.blank, "'\"'", ⟨⟨1, 9⟩, ⟨1, 12⟩⟩, "'a'", ⟨⟨1, 14⟩, ⟨1, 17⟩⟩⟩,
    ⟨.keep, "'k'", ⟨⟨2, 10⟩, ⟨2, 13⟩⟩, "'b'", ⟨⟨2, 15⟩, ⟨2, 18⟩⟩⟩]

def pairEntries : List Entry :=
  [.ofCall .blank "m" (.plain "\"") "a", .ofCall .keep "m" (.plain "k") "b"]

def pairPatches : List Patch :=
  [⟨"import \x7b localize, localize2 \x7d from 'nls';\nlocalize(".toList, "'\"'".toList,
      quoteChars "%%NLS:m#\"%%".toList⟩,
    ⟨", 'a');\nlocalize2(".toList, "'k'".toList, quoteChars "%%NLS2:m#k%%".toList⟩]

def pairNumbers : Numbers := [("%%NLS2:m#k%%", 0), ("%%NLS:m#\"%%", 12)]

theorem extract_pairText : recorded ⟨true, false⟩ pairText = pairCalls ∧
    extract ⟨true, false⟩ "m" pairText = .ok ⟨pairCode, pairEntries⟩ := by
  have replaced : String.ofList (replaceKeys (.ofText pairText.toList)
      (pairCalls.zip pairEntries)).toText = pairCode := by
    decide +kernel
  rw [← replaced]
  exact extract_of_sorted (by decide +kernel) (by decide +kernel) (by decide +kernel)
    (by decide +kernel) (by decide +kernel)

theorem keyCut_pairText :
    KeyCut pairText.toList pairCalls pairEntries pairPatches ", 'b');".toList :=
  ⟨by decide +kernel, by decide +kernel⟩

theorem preserving_numbers_pair :
    occursIn marker pairText.toList = false ∧
      extract ⟨true, false⟩ "m" pairText = .ok ⟨pairCode, pairEntries⟩ ∧
      inlineNumbers pairNumbers .preserving pairCode.toList =
        ⟨(pairScript "12" "0").toList, 2, 0, []⟩ := by
  have clean : occursIn marker pairText.toList = false := by decide +kernel
  obtain ⟨found, extracted⟩ := extract_pairText
  have clear : (recorded ⟨true, false⟩ pairText).Pairwise fun a b =>
      Clear a.keyRange b.keyRange := by
    rw [found]
    exact List.pairwise_pair.2 (.inl (by decide))
  have known : ∀ e ∈ pairEntries, ∃ number, pairNumbers.number? e.placeholder = some number :=
    List.forall_mem_cons.2
      ⟨⟨12, by decide +kernel⟩, List.forall_mem_singleton.2 ⟨0, by decide +kernel⟩⟩
  have cut : KeyCut pairText.toList (recorded ⟨true, false⟩ pairText) pairEntries pairPatches
      ", 'b');".toList := by
    rw [found]
    exact keyCut_pairText
  have sound : ∀ p ∈ pairPatches, p.Sound :=
    List.forall_mem_cons.2 ⟨⟨by decide, by decide, by decide⟩,
      List.forall_mem_singleton.2 ⟨by decide, by decide, by decide⟩⟩
  have fenced : ∀ p ∈ pairPatches.tail, Fenced p.before :=
    List.forall_mem_singleton.2 ⟨[], [' '], '\x27', "a');\nlocalize2(".toList, by decide,
      ⟨false, false, 0, _, rfl, rfl⟩, ⟨false, false, 0, _, rfl, rfl⟩, by decide, by decide⟩
  obtain ⟨-, parts⟩ := preserving_numbers clean extracted clear known
  obtain ⟨-, exactly, bounded⟩ := parts _ _ cut sound
  refine ⟨clean, extracted, (exactly.2 (bounded fenced)).trans ?_⟩
  decide +kernel

/-! ## A mark in front of a script -/

def markedScript (first second : String) : String :=
  "\ufeffimport \x7b localize, localize2 \x7d from 'nls';\nlocalize(/*" ++ first ++
    ", ', /*\"*/\"ab\");localize2(/*" ++ second ++ ", ', /*\"*/\"ab\");"

def markedText : String := markedScript "'*/'" "'*/'"

def markedCode : String := markedScript "\"%%NLS:m#*/%%\"" "\"%%NLS2:m#*/%%\""

def markedCalls : List Call :=
  [⟨.blank, "'*/'", ⟨⟨1, 11⟩, ⟨1, 15⟩⟩, "\"*/\"", ⟨⟨1, 22⟩, ⟨1, 26⟩⟩⟩,
    ⟨.keep, "'*/'", ⟨⟨1, 43⟩, ⟨1, 47⟩⟩, "\"*/\"", ⟨⟨1, 54⟩, ⟨1, 58⟩⟩⟩]

def markedEntries : List Entry :=
  [.ofCall .blank "m" (.plain "*/") "*/", .ofCall .keep "m" (.plain "*/") "*/"]

def markedNumbers : Numbers := [("%%NLS2:m#*/%%", 0), ("%%NLS:m#*/%%", 1)]

theorem extract_markedText : recorded ⟨true, false⟩ markedText = markedCalls ∧
    extract ⟨true, false⟩ "m" markedText = .ok ⟨markedCode, markedEntries⟩ := by
  have replaced : String.ofList (replaceKeys (.ofText markedText.toList)
      (markedCalls.zip markedEntries)).toText = markedCode := by
    decide +kernel
  rw [← replaced]
  exact extract_of_sorted (by decide +kernel) (by decide +kernel) (by decide +kernel)
    (by decide +kernel) (by decide +kernel)

/-- The message behind the first literal takes the second one along. -/
theorem preserving_swallows_literal :
    occursIn marker markedText.toList = false ∧
      extract ⟨true, false⟩ "m" markedText = .ok ⟨markedCode, markedEntries⟩ ∧
      ((recorded ⟨true, false⟩ markedText).Pairwise fun a b => Clear a.keyRange b.keyRange) ∧
      (∀ e ∈ markedEntries, ∃ number, markedNumbers.number? e.placeholder = some number) ∧
      inlineNumbers markedNumbers .preserving markedCode.toList =
        ⟨(markedScript "1" "\"%%NLS2:m#*/%%\"").toList, 1, 0, []⟩ := by
  have clean : occursIn marker markedText.toList = false := by decide +kernel
  obtain ⟨found, extracted⟩ := extract_markedText
  have clear : markedCalls.Pairwise fun a b => Clear a.keyRange b.keyRange :=
    List.pairwise_pair.2 (.inl (by decide))
  have known : ∀ e ∈ markedEntries, ∃ number,
      markedNumbers.number? e.placeholder = some number :=
    List.forall_mem_cons.2
      ⟨⟨1, by decide +kernel⟩, List.forall_mem_singleton.2 ⟨0, by decide +kernel⟩⟩
  refine ⟨clean, extracted, found ▸ clear, known, ?_⟩
  let first := "\ufeffimport \x7b localize, localize2 \x7d from 'nls';\nlocalize(/*".toList
  let entry : Entry := .ofCall .blank "m" (.plain "*/") "*/"
  let message := ", /*\"*/\"ab\");localize2(/*\"%%NLS2:m#*/%%\", ".toList
  let last := ", /*\"*/\"ab\");".toList
  have cut : markedCode.toList =
      first ++ (literal entry ++ (", ".toList ++ ((Quoted.mk '\x27' message).text ++ last))) := by
    decide +kernel
  have taken : fallback? (", ".toList ++ ((Quoted.mk '\x27' message).text ++ last)) =
      some (⟨", ".toList, ⟨'\x27', message⟩⟩, last) := by
    decide +kernel
  have numbered : entry.Numbered markedNumbers :=
    ⟨⟨.blank, "m", "*/", rfl⟩, known entry (by simp [markedEntries, entry])⟩
  have before : Calm first := by decide +kernel
  have behind : Calm last := by decide +kernel
  rw [inlineNumbers_eq, cut, scanned_calm _ _ before (.inr rfl), scanned_literal numbered, taken]
  simp only [scanned_of_calm _ _ behind]
  decide +kernel

end BundlePrep.Message
