import BundlePrep.Proofs.Message.Blanking
import Mathlib.Data.List.Forall2

/-!
# Production builds of transformed code

The calls of transformed code are those of the script, and a production build finds each of them.
What it makes of a message depends on how the message is written.
-/

set_option autoImplicit false

namespace BundlePrep.Message

open BundlePrep.Json BundlePrep.Script BundlePrep.Text

/-! ## The calls of transformed code -/

theorem placed_move {numbers : Numbers} {moduleId : String} (debt : List LineEnding)
    {cs : List (Cut × List Char)} (sound : ∀ c ∈ cs, c.1.Sound)
    (keys : ∀ c ∈ cs, ∃ key number, c.2 = quoteChars (placeholder c.1.flavor moduleId key).toList ∧
      numbers.number? (placeholder c.1.flavor moduleId key) = some number)
    (constant : ∀ c ∈ cs, ∃ value, parseValue (String.ofList c.1.message) = .ok value) :
    ∀ c ∈ (move debt cs).1, c.Placed numbers moduleId := by
  induction cs generalizing debt with
  | nil => intro c mem; cases mem
  | cons c cs ih =>
    obtain ⟨c, content⟩ := c
    intro d mem
    rcases List.mem_cons.1 mem with rfl | mem
    · have shape := sound (c, content) (by simp)
      obtain ⟨value, parsed⟩ := constant (c, content) (by simp)
      obtain ⟨quote, cs', message, quoted, closed⟩ := closes_of_parseValue shape.starts parsed
      obtain ⟨a, b, separator, gapA, gapB⟩ := shape.separator
      refine ⟨keys (c, content) (by simp), ?_, ?_⟩
      · have parts := settle_append ((settle debt c.before).2 ++ endings c.key) (a := a) (',' :: b)
          (fun _ => by simp)
        rw [settle_cons _ (by decide) (by decide)] at parts
        exact ⟨_, _, by rw [separator, parts], (leads_of_gap gapA).settle _,
          (leads_of_gap gapB).settle _⟩
      · have first : quote ≠ '\n' ∧ quote ≠ '\r' := by
          rcases isQuote_cases quoted with rfl | rfl | rfl <;> decide
        let owed := (settle ((settle debt c.before).2 ++ endings c.key) c.separator).2
        have kept : (settle owed c.message).1 = quote :: (settle owed cs').1 := by
          rw [show c.message = quote :: cs' from message, settle_cons _ first.1 first.2]
        exact ⟨quote, _, kept, quoted, (closes_settle quoted owed cs').trans closed⟩
    · exact ih _ (fun d mem => sound d (by simp [mem])) (fun d mem => keys d (by simp [mem]))
        (fun d mem => constant d (by simp [mem])) d mem

theorem calmBetween_move {last : List Char} (debt : List LineEnding) {pending : List Char}
    {cs : List (Cut × List Char)} (sound : ∀ c ∈ cs, c.1.Sound)
    (apart : pending.getLast? ≠ some '\r') (calm : CalmBetween pending last (cs.map Prod.fst)) :
    CalmBetween (settle debt pending).1
      (settleLast (move (settle debt pending).2 cs).2 last) (move (settle debt pending).2 cs).1 := by
  have parts (b : List Char) := settle_append debt b fun ends => absurd ends apart
  induction cs generalizing debt pending with
  | nil =>
    have all := (show Calm (pending ++ last) from calm).settleLast debt
    rw [settleLast, parts, List.append_assoc] at all
    exact all
  | cons c cs ih =>
    obtain ⟨c, content⟩ := c
    have shape := sound (c, content) (by simp)
    have message : c.separator.getLast? = some '\r' → c.message.head? ≠ some '\n' :=
      fun _ => shape.message.head_ne (by decide)
    have ends : (c.separator ++ c.message).getLast? ≠ some '\r' := by
      rw [List.getLast?_append_of_ne_nil _ shape.message.nonempty]
      exact shape.message.last_ne (by decide)
    have first := calm.1.settle debt
    rw [parts] at first
    have rest := ih ((settle (settle debt pending).2 c.before).2 ++ endings c.key)
      (fun d mem => sound d (by simp [mem])) ends calm.2
      (fun b => settle_append _ b fun last => absurd last ends)
    rw [settle_append _ c.message message] at rest
    exact ⟨first, rest⟩

theorem calmBetween_of_calm {pending last : List Char} {cuts : List Cut}
    (h : Calm (pending ++ (cuts.flatMap Cut.text ++ last))) : CalmBetween pending last cuts := by
  induction cuts generalizing pending with
  | nil => exact h
  | cons c cuts ih =>
    have text : pending ++ ((c :: cuts).flatMap Cut.text ++ last) =
        pending ++ c.before ++ (c.key ++ (c.separator ++ c.message ++
          (cuts.flatMap Cut.text ++ last))) := by
      simp [Cut.text]
    rw [text] at h
    exact ⟨h.of_append_left, ih h.of_append_right.of_append_right⟩

/-- The cuts of the transformed code, and what stands behind them. -/
def transformed (cuts : List Cut) (last : List Char) (entries : List Entry) :
    List Cut × List Char :=
  let moved := move [] (cuts.zip (entries.map fun entry => quoteChars entry.placeholder.toList))
  (moved.1, settleLast moved.2 last)

theorem length_callsAt (lines : LineIndex) (front : List Char) (cuts : List Cut) :
    (callsAt lines front cuts).length = cuts.length := by
  induction cuts generalizing front with
  | nil => rfl
  | cons c cuts ih => simp [callsAt, ih]

theorem code_transformed {dialect : Dialect} {moduleId code : String} {extraction : Extraction}
    (extracted : extract dialect moduleId code = .ok extraction) {cuts : List Cut}
    {last : List Char} (stand : Stand code.toList (recorded dialect code) cuts last) :
    extraction.code.toList =
      (transformed cuts last extraction.entries).1.flatMap Cut.text ++
        (transformed cuts last extraction.entries).2 := by
  have each := (extract_eq_ok extracted).1
  let cs := cuts.zip (extraction.entries.map fun entry => quoteChars entry.placeholder.toList)
  have length : cuts.length = extraction.entries.length := by
    have same := each.length_eq
    rwa [stand.calls, length_callsAt] at same
  have first : cs.map Prod.fst = cuts := List.map_fst_zip (by simp [length])
  have second : cs.map Prod.snd =
      extraction.entries.map fun entry => quoteChars entry.placeholder.toList :=
    List.map_snd_zip (by simp [length])
  have sound : ∀ c ∈ cs, c.1.Sound := fun c mem => stand.sound c.1 (List.of_mem_zip mem).1
  have aligned : code.toList = [] ++ [] ++ ((cs.map Prod.fst).flatMap Cut.text ++ last) := by
    rw [first]
    exact stand.whole
  have ranges := ranges_patches [] [] cs aligned
  rw [first, second, List.append_nil, ← stand.calls] at ranges
  have text := joined_patches [] last cs
  rw [first, List.nil_append, ← stand.whole] at text
  rw [List.zip_map_right, List.map_map] at ranges
  rw [code_woven extracted (sound_patches sound []) text.symm ranges,
    weave_patches last [] [] cs sound (by simp), settle_nil]
  rfl

/-! ## Entries of the calls -/

def Cut.Yields (moduleId : String) (c : Cut) (entry : Entry) : Prop :=
  (∃ key message, entry = .ofCall c.flavor moduleId key message) ∧
    ∃ value, parseValue (String.ofList c.message) = .ok value

theorem yields_of_entryOf {moduleId : String} {lines : LineIndex} {front : List Char} {c : Cut}
    {entry : Entry} (h : entryOf moduleId (c.call lines front) = .ok entry) :
    c.Yields moduleId entry := by
  obtain ⟨key, message, -, parsed, same⟩ := entryOf_eq_ok h
  exact ⟨⟨key, message, same⟩, message, parsed⟩

theorem yields_of_calls {moduleId : String} {lines : LineIndex} {front : List Char}
    {cuts : List Cut} {entries : List Entry}
    (h : List.Forall₂ (fun call entry => entryOf moduleId call = .ok entry)
      (callsAt lines front cuts) entries) : List.Forall₂ (Cut.Yields moduleId) cuts entries := by
  induction cuts generalizing front entries with
  | nil =>
    cases h
    exact .nil
  | cons c cuts ih =>
    cases h with
    | cons first rest => exact .cons (yields_of_entryOf first) (ih rest)

theorem Cut.Yields.placeholder {moduleId : String} {c : Cut} {entry : Entry}
    (h : c.Yields moduleId entry) :
    ∃ key, entry.placeholder = Message.placeholder c.flavor moduleId key := by
  obtain ⟨⟨key, message, rfl⟩, -⟩ := h
  exact ⟨key.primary, rfl⟩

theorem flavor_callsAt (lines : LineIndex) (front : List Char) (cuts : List Cut) :
    (callsAt lines front cuts).map Call.flavor = cuts.map Cut.flavor := by
  induction cuts generalizing front with
  | nil => rfl
  | cons c cuts ih =>
    rw [callsAt, List.map_cons, List.map_cons, ih]
    rfl

theorem flavor_move (debt : List LineEnding) (cs : List (Cut × List Char)) :
    (move debt cs).1.map Cut.flavor = (cs.map Prod.fst).map Cut.flavor := by
  induction cs generalizing debt with
  | nil => rfl
  | cons c cs ih => rw [move, List.map_cons, List.map_cons, List.map_cons, ih]

theorem placed_transformed {numbers : Numbers} {moduleId : String} {cuts : List Cut}
    {last : List Char} {entries : List Entry} (sound : ∀ c ∈ cuts, c.Sound)
    (each : List.Forall₂ (Cut.Yields moduleId) cuts entries)
    (known : ∀ e ∈ entries, ∃ number, numbers.number? e.placeholder = some number)
    (calm : Calm (cuts.flatMap Cut.text ++ last)) :
    (∀ c ∈ (transformed cuts last entries).1, c.Placed numbers moduleId) ∧
      CalmBetween [] (transformed cuts last entries).2 (transformed cuts last entries).1 := by
  let contents := entries.map fun entry => quoteChars entry.placeholder.toList
  have paired : ∀ c ∈ cuts.zip contents, ∃ e ∈ entries,
      c.1.Yields moduleId e ∧ c.2 = quoteChars e.placeholder.toList := by
    intro c mem
    rw [List.zip_map_right] at mem
    obtain ⟨⟨cut, e⟩, inside, rfl⟩ := List.mem_map.1 mem
    exact ⟨e, (List.of_mem_zip inside).2, (List.forall₂_iff_zip.1 each).2 inside, rfl⟩
  have soundPairs : ∀ c ∈ cuts.zip contents, c.1.Sound :=
    fun c mem => sound c.1 (List.of_mem_zip mem).1
  constructor
  · refine placed_move [] soundPairs ?_ ?_
    · intro c mem
      obtain ⟨e, inside, yields, content⟩ := paired c mem
      obtain ⟨key, placeholder⟩ := yields.placeholder
      obtain ⟨number, numbered⟩ := known e inside
      rw [placeholder] at content numbered
      exact ⟨key, number, content, numbered⟩
    · intro c mem
      obtain ⟨e, -, yields, -⟩ := paired c mem
      exact yields.2
  · have first : (cuts.zip contents).map Prod.fst = cuts :=
      List.map_fst_zip (by simp [contents, each.length_eq])
    have between : CalmBetween [] last ((cuts.zip contents).map Prod.fst) := by
      rw [first]
      exact calmBetween_of_calm calm
    have moved := calmBetween_move [] soundPairs (by simp) between
    rwa [settle_nil] at moved

/-- In a production build the message of every call becomes `null` as a whole exactly if it is
blankable; the catalog may hold the entries of other scripts, too. -/
theorem production_blanks {dialect : Dialect} {moduleId code : String} {extraction : Extraction}
    {cuts : List Cut} {last : List Char} (clean : occursIn marker code.toList = false)
    (extracted : extract dialect moduleId code = .ok extraction)
    (stand : Stand code.toList (recorded dialect code) cuts last) (others later : List Entry) :
    let numbers := (Catalog.ofCollection
      (((Collection.empty.addAll others).addAll extraction.entries).addAll later)).numbers
    let moved := transformed cuts last extraction.entries
    extraction.code.toList = moved.1.flatMap Cut.text ++ moved.2 ∧
      moved.1.map Cut.flavor = (recorded dialect code).map Call.flavor ∧
      ∀ front c back, moved.1 = front ++ c :: back → ∃ key number left,
        c.key = quoteChars (placeholder c.flavor moduleId key).toList ∧
        numbers.number? (placeholder c.flavor moduleId key) = some number ∧
        (inlineNumbers numbers .production extraction.code.toList).code =
          (inlineNumbers numbers .production (front.flatMap Cut.text ++ c.before)).code ++
            (Nat.toDigits 10 number ++ (c.separator ++ (left ++
              (inlineNumbers numbers .production (back.flatMap Cut.text ++ moved.2)).code))) ∧
        (c.flavor = .blank → (left = "null".toList ↔ Blankable c.separator c.message)) := by
  intro numbers moved
  have whole := code_transformed extracted stand
  have each : List.Forall₂ (Cut.Yields moduleId) cuts extraction.entries := by
    have entries := (extract_eq_ok extracted).1
    rw [stand.calls] at entries
    exact yields_of_calls entries
  have known : ∀ e ∈ extraction.entries, ∃ number, numbers.number? e.placeholder = some number := by
    intro e mem
    exact number?_ofCollection ((Collection.holds_addAll mem).addAll later)
  have calm : Calm (cuts.flatMap Cut.text ++ last) := by
    rw [← stand.whole]
    exact calm_iff.2 clean
  obtain ⟨placed, between⟩ := placed_transformed stand.sound each known calm
  refine ⟨whole, ?_, ?_⟩
  · rw [stand.calls, flavor_callsAt]
    refine (flavor_move _ _).trans (congrArg _ (List.map_fst_zip ?_))
    simp [each.length_eq]
  · intro front c back split
    have cut : (transformed cuts last extraction.entries).1 = front ++ c :: back := split
    rw [cut] at placed between
    obtain ⟨key, number, left, keyText, numbered, text, blanked⟩ := inlined_around between placed
    refine ⟨key, number, left, keyText, numbered, ?_, blanked⟩
    simp only [code_inlineNumbers]
    rw [whole, cut, text]

/-! ## One call -/

def greeting : String := "import \x7b localize \x7d from 'nls';\nlocalize(\x7b\n  key: 'k'\n\x7d, 'a');"

def greetingCut : Cut :=
  ⟨.blank, "import \x7b localize \x7d from 'nls';\nlocalize(".toList, "\x7b\n  key: 'k'\n\x7d".toList,
    ", ".toList, "'a'".toList⟩

theorem greetingCut_sound : greetingCut.Sound where
  key := ⟨by decide, by decide, by decide⟩
  message := ⟨by decide, by decide, by decide⟩
  starts := by rfl
  separator := ⟨[], [' '], by decide, ⟨false, false, 0, _, rfl, rfl⟩, ⟨false, false, 0, _, rfl, rfl⟩⟩

def greetingExtraction : Extraction :=
  ⟨"import \x7b localize \x7d from 'nls';\nlocalize(\"%%NLS:m#k%%\", 'a');\n\n",
    [.ofCall .blank "m" (.described "k" []) "a"]⟩

theorem production_blanks_greeting :
    occursIn marker greeting.toList = false ∧
      extract ⟨true, false⟩ "m" greeting = .ok greetingExtraction ∧
      Stand greeting.toList (recorded ⟨true, false⟩ greeting) [greetingCut] ");".toList ∧
      ∃ number,
        (inlineNumbers (Catalog.ofCollection (((Collection.empty.addAll []).addAll
            greetingExtraction.entries).addAll [])).numbers .production
          greetingExtraction.code.toList).code =
          "import \x7b localize \x7d from 'nls';\nlocalize(".toList ++
            (Nat.toDigits 10 number ++ (", ".toList ++ ("null".toList ++ ");\n\n".toList))) := by
  have clean : occursIn marker greeting.toList = false := by decide +kernel
  have extracted : extract ⟨true, false⟩ "m" greeting = .ok greetingExtraction := by decide +kernel
  have stand : Stand greeting.toList (recorded ⟨true, false⟩ greeting) [greetingCut] ");".toList :=
    ⟨by decide +kernel, by decide +kernel, by simpa using greetingCut_sound⟩
  refine ⟨clean, extracted, stand, ?_⟩
  obtain ⟨-, -, each⟩ := production_blanks clean extracted stand [] []
  obtain ⟨key, number, left, -, -, text, blanked⟩ := each []
    { greetingCut with key := quoteChars "%%NLS:m#k%%".toList } [] (by decide +kernel)
  have blankable : Blankable ", ".toList "'a'".toList :=
    ⟨⟨[], [' '], by decide⟩, ⟨'\x27', ['a'], by decide, by decide,
      .plain (by decide) (by decide) (by decide) .nil⟩, by decide⟩
  have null : left = "null".toList := (blanked rfl).2 blankable
  have front : Calm ([].flatMap Cut.text ++ greetingCut.before) := by decide +kernel
  have last : (transformed [greetingCut] ");".toList greetingExtraction.entries).2 =
      ");\n\n".toList := by
    decide +kernel
  have back : Calm ([].flatMap Cut.text ++ ");\n\n".toList) := by decide +kernel
  refine ⟨number, ?_⟩
  rw [text, null, last, code_inlineNumbers, code_inlineNumbers, inlined_of_calm _ _ front,
    inlined_of_calm _ _ back]
  rfl

/-- Of a chain only its first text becomes `null`: the rest of the message stays behind it. -/
theorem production_keeps_chain :
    occursIn marker "import \x7b localize \x7d from 'nls';\nlocalize('k', 'a' + 'b');".toList = false ∧
      (extract ⟨true, false⟩ "m"
          "import \x7b localize \x7d from 'nls';\nlocalize('k', 'a' + 'b');").toOption.map
        (fun extraction =>
          (inlineNumbers (Catalog.ofCollection
              (Collection.empty.addAll extraction.entries)).numbers
            .production extraction.code.toList).code) =
        some "import \x7b localize \x7d from 'nls';\nlocalize(0, null + 'b');".toList := by
  decide +kernel

end BundlePrep.Message
