import BundlePrep.Proofs.Text.Glue

/-!
# Replacing several ranges of a text

When ranges of a document are replaced from the last to the first, the text around them stays and
each range gives way to its new content. The line endings of a range are owed from there on: they
come back in front of the next line ending that is kept, or at the end of the text.
-/

set_option autoImplicit false

namespace BundlePrep.Text

/-- A range that is replaced: the text between the range before and this one, the text of the range
and what is put for it. -/
structure Patch where
  before : List Char
  removed : List Char
  content : List Char
  deriving DecidableEq, Repr

/-- A range is not cut inside a line ending. -/
structure Patch.Sound (patch : Patch) : Prop where
  nonempty : patch.removed ≠ []
  head : patch.removed.head? ≠ some '\n'
  last : patch.removed.getLast? ≠ some '\r'

def settle (debt : List LineEnding) : List Char → List Char × List LineEnding
  | [] => ([], debt)
  | '\r' :: '\n' :: cs => (debt.flatMap LineEnding.text ++ '\r' :: '\n' :: cs, [])
  | '\n' :: cs => (debt.flatMap LineEnding.text ++ '\n' :: cs, [])
  | c :: cs => (c :: (settle debt cs).1, (settle debt cs).2)

/-- The text with its ranges. -/
def joined (last : List Char) : List Patch → List Char
  | [] => last
  | p :: ps => p.before ++ (p.removed ++ joined last ps)

def weave (last : List Char) : List LineEnding → List Patch → List Char
  | debt, [] => (settle debt last).1 ++ (settle debt last).2.flatMap LineEnding.text
  | debt, p :: ps =>
    (settle debt p.before).1 ++
      (p.content ++ weave last ((settle debt p.before).2 ++ endings p.removed) ps)

def wovenLines (last : List Char) : List Patch → List Line
  | [] => glue last [⟨[], .none⟩]
  | p :: ps => glue p.before (prepend p.content (owe (endings p.removed) (wovenLines last ps)))

/-- The ranges behind a text that stands in front, with their new contents. -/
def ranges (front : List Char) : List Patch → List (Range × List Char)
  | [] => []
  | p :: ps =>
    (⟨positionOf (front ++ p.before), positionOf (front ++ p.before ++ p.removed)⟩, p.content) ::
      ranges (front ++ p.before ++ p.removed) ps

theorem content_ranges (front : List Char) (ps : List Patch) :
    (ranges front ps).map Prod.snd = ps.map Patch.content := by
  induction ps generalizing front with
  | nil => rfl
  | cons p ps ih => rw [ranges, List.map_cons, List.map_cons, ih]

theorem wovenLines_ne_nil (last : List Char) (ps : List Patch) : wovenLines last ps ≠ [] := by
  cases ps with
  | nil => exact glue_ne_nil last (by simp)
  | cons p ps =>
    exact glue_ne_nil _ (prepend_ne_nil _ (owe_ne_nil _ (wovenLines_ne_nil last ps)))

theorem settle_nil (text : List Char) : settle [] text = (text, []) := by
  fun_induction settle [] text with
  | case1 => rfl
  | case2 cs => rfl
  | case3 cs => rfl
  | case4 c cs _ _ ih => rw [ih]

theorem toText_owe_glue (debt : List LineEnding) (text : List Char) {lines : List Line}
    (h : lines ≠ []) : Document.toText ⟨owe debt (glue text lines)⟩ =
      (settle debt text).1 ++ Document.toText ⟨owe (settle debt text).2 lines⟩ := by
  fun_induction settle debt text with
  | case1 => rw [glue_nil, List.nil_append]
  | case2 cs =>
    rw [glue_carriageReturnLineFeed, toText_owe, toText_glue cs h]
    simp [LineEnding.text, owe]
  | case3 cs =>
    rw [glue_lineFeed, toText_owe, toText_glue cs h]
    simp [LineEnding.text, owe]
  | case4 c cs crlf lf ih =>
    have alone : c = '\r' → cs.head? ≠ some '\n' := by
      rintro rfl head
      obtain ⟨cs', rfl⟩ := List.head?_eq_some_iff.1 head
      exact crlf cs' rfl rfl
    rw [glue_char lf alone, owe_prepend, toText_prepend _ (owe_ne_nil _ (glue_ne_nil cs h)), ih]
    rfl

theorem toText_wovenLines (last : List Char) (debt : List LineEnding) (ps : List Patch) :
    Document.toText ⟨owe debt (wovenLines last ps)⟩ = weave last debt ps := by
  induction ps generalizing debt with
  | nil =>
    rw [wovenLines, toText_owe_glue debt last (by simp), weave, toText_owe]
    simp [LineEnding.text, Document.toText]
  | cons p ps ih =>
    have behind := owe_ne_nil (endings p.removed) (wovenLines_ne_nil last ps)
    rw [wovenLines, toText_owe_glue debt p.before (prepend_ne_nil _ behind), owe_prepend,
      toText_prepend _ (owe_ne_nil _ behind), ← owe_append, ih, weave]

def Clear (front last : List Char) : List Patch → Prop
  | [] => Apart front last
  | p :: ps =>
    Apart front (joined last (p :: ps)) ∧ Apart (front ++ p.before) (p.removed ++ joined last ps) ∧
      Clear (front ++ p.before ++ p.removed) last ps

theorem clear_of_sound {front last : List Char} {ps : List Patch} (sound : ∀ p ∈ ps, p.Sound)
    (start : front.getLast? ≠ some '\r') : Clear front last ps := by
  induction ps generalizing front with
  | nil => exact fun ends => absurd ends start
  | cons p ps ih =>
    have shape := sound p (by simp)
    refine ⟨fun ends => absurd ends start, fun _ => ?_, ih (fun q mem => sound q (by simp [mem])) ?_⟩
    · rw [List.head?_append_of_ne_nil _ shape.nonempty]
      exact shape.head
    · rw [List.getLast?_append_of_ne_nil _ shape.nonempty]
      exact shape.last

theorem foldr_replace {last front : List Char} {ps : List Patch} (clear : Clear front last ps) :
    (ranges front ps).foldr (fun r document => document.replace r.1 r.2)
        (Document.ofText (front ++ joined last ps)) = ⟨glue front (wovenLines last ps)⟩ := by
  suffices all : ∀ whole, whole = front ++ joined last ps →
      (ranges front ps).foldr (fun r document => document.replace r.1 r.2)
        (Document.ofText whole) = ⟨glue front (wovenLines last ps)⟩ from all _ rfl
  intro whole same
  induction ps generalizing front with
  | nil =>
    rw [ranges, List.foldr_nil, ofText_eq_glue, same, joined, wovenLines, glue_append _ clear]
  | cons p ps ih =>
    obtain ⟨start, apart, further⟩ := clear
    have rest := ih further (by rw [same, joined]; simp only [List.append_assoc])
    rw [ranges, List.foldr_cons, rest, glue_append p.removed apart.left,
      replace_glue apart.left _ (wovenLines_ne_nil last ps), glue_append p.before start.left,
      wovenLines]

theorem toText_replaced (last : List Char) (ps : List Patch) (sound : ∀ p ∈ ps, p.Sound) :
    ((ranges [] ps).foldr (fun r document => document.replace r.1 r.2)
      (Document.ofText (joined last ps))).toText = weave last [] ps := by
  have clear : Clear [] last ps := clear_of_sound sound (by simp)
  have lines := foldr_replace clear
  rw [List.nil_append] at lines
  rw [lines, glue_nil, ← toText_wovenLines]
  rfl

/-- Line endings are settled in two parts of a text, one behind the other, unless the parts are cut
inside a line ending. -/
theorem settle_append (debt : List LineEnding) {a : List Char} (b : List Char)
    (apart : a.getLast? = some '\r' → b.head? ≠ some '\n') :
    settle debt (a ++ b) =
      ((settle debt a).1 ++ (settle (settle debt a).2 b).1, (settle (settle debt a).2 b).2) := by
  fun_induction settle debt a with
  | case1 => rfl
  | case2 cs => simp [settle, settle_nil]
  | case3 cs => simp [settle, settle_nil]
  | case4 c cs crlf lf ih =>
    have further : cs.getLast? = some '\r' → b.head? ≠ some '\n' := by
      intro last
      cases cs with
      | nil => simp at last
      | cons d cs => exact apart (by simpa using last)
    rw [List.cons_append, settle, ih further]
    · rfl
    · rintro cs' rfl whole
      cases cs with
      | nil => exact apart rfl (by simp only [List.nil_append] at whole; simp [whole])
      | cons d cs =>
        obtain ⟨rfl, rfl⟩ := List.cons.inj whole
        exact crlf cs rfl rfl
    · exact lf

theorem settle_cons (debt : List LineEnding) {c : Char} {cs : List Char} (lf : c ≠ '\n')
    (cr : c ≠ '\r') : settle debt (c :: cs) = (c :: (settle debt cs).1, (settle debt cs).2) := by
  rw [settle]
  · rintro cs' rfl
    exact absurd rfl cr
  · exact lf

def owed (debt : List LineEnding) (text : List Char) : List LineEnding :=
  if '\n' ∈ text then [] else debt

theorem settle_plain (debt : List LineEnding) {text : List Char} (h : '\n' ∉ text) :
    settle debt text = (text, debt) := by
  fun_induction settle debt text with
  | case1 => rfl
  | case2 cs => simp at h
  | case3 cs => simp at h
  | case4 c cs _ _ ih => rw [ih fun mem => h (List.mem_cons_of_mem c mem)]

theorem settle_snd (debt : List LineEnding) (text : List Char) :
    (settle debt text).2 = owed debt text := by
  rw [owed]
  split
  next mem =>
    fun_induction settle debt text with
    | case1 => cases mem
    | case2 cs => rfl
    | case3 cs => rfl
    | case4 c cs _ lf ih => exact ih (List.mem_of_ne_of_mem (Ne.symm lf) mem)
  next plain => rw [settle_plain debt plain]

theorem mem_endings_text {debt : List LineEnding} {c : Char}
    (h : c ∈ debt.flatMap LineEnding.text) : c = '\n' ∨ c = '\r' := by
  obtain ⟨ending, -, mem⟩ := List.mem_flatMap.1 h
  cases ending with
  | none => cases mem
  | lineFeed => exact .inl (List.mem_singleton.1 mem)
  | carriageReturnLineFeed => simpa [LineEnding.text, or_comm] using mem

theorem settle_cases (debt : List LineEnding) (text : List Char) :
    settle debt text = (text, debt) ∨
      ∃ a c b, text = a ++ c :: b ∧ (c = '\n' ∨ c = '\r') ∧
        settle debt text = (a ++ (debt.flatMap LineEnding.text ++ c :: b), []) := by
  fun_induction settle debt text with
  | case1 => exact .inl rfl
  | case2 cs => exact .inr ⟨[], '\r', '\n' :: cs, rfl, .inr rfl, rfl⟩
  | case3 cs => exact .inr ⟨[], '\n', cs, rfl, .inl rfl, rfl⟩
  | case4 c cs _ _ ih =>
    rcases ih with same | ⟨a, d, b, rfl, newline, settled⟩
    · rw [same]
      exact .inl rfl
    · rw [settled]
      exact .inr ⟨c :: a, d, b, rfl, newline, rfl⟩

end BundlePrep.Text
