import BundlePrep.Proofs.Message.Cut
import BundlePrep.Proofs.Script.Quoting
import BundlePrep.Proofs.Text.Portion

/-!
# The items of transformed code

The keys of a script are replaced by one token each, and the line endings of a key come back in
front of the next line ending behind it. Where that one stands in a gap, nothing changes but the
gap. Where it stands inside an item, in a template or a text that goes on in the next line, the
item changes.
-/

set_option autoImplicit false

namespace BundlePrep.Message

open BundlePrep.Json BundlePrep.Script BundlePrep.Text

/-- A part of a script: a piece, or a key behind the parenthesis in front of it, with what is put
for the key. -/
inductive Part where
  | piece (p : Piece)
  | key (gap : List Char) (first : Piece) (more : List Piece) (content : List Char)
  deriving DecidableEq, Repr

def keyText (first : Piece) (more : List Piece) : List Char := first.text ++ spell [] more

namespace Part

def pieces : Part → List Piece
  | .piece p => [p]
  | .key gap first more _ => ⟨gap, .token, ['(']⟩ :: first :: more

/-- The items of a part after its key has been replaced. -/
def items : Part → List Item
  | .piece p => [p.item]
  | .key _ _ _ content => [⟨.token, ['(']⟩, ⟨.token, content⟩]

def portions : Part → List Portion
  | .piece p => [.kept p.gap, .kept p.text]
  | .key gap first more content =>
    [.kept gap, .kept ['('], .kept first.gap, .changed (keyText first more) content]

def Sound : Part → Prop
  | .piece _ => True
  | .key _ first more content => Tight (keyText first more) ∧ IsQuoted content

end Part

def moved (last : List Char) : List LineEnding → List Part → List Char
  | debt, [] => settleLast debt last
  | debt, .piece p :: parts =>
    (settle debt p.gap).1 ++ ((settle (owed debt p.gap) p.text).1 ++
      moved last (owed (owed debt p.gap) p.text) parts)
  | debt, .key gap first more content :: parts =>
    (settle debt gap).1 ++ (['('] ++ ((settle (owed debt gap) first.gap).1 ++ (content ++
      moved last (owed (owed debt gap) first.gap ++ endings (keyText first more)) parts)))

/-- No line ending is owed where an item goes on in the next line. -/
def Undisturbed : List LineEnding → List Part → Prop
  | _, [] => True
  | debt, .piece p :: parts =>
    (owed debt p.gap = [] ∨ '\n' ∉ p.text) ∧ Undisturbed (owed (owed debt p.gap) p.text) parts
  | debt, .key gap first more _ :: parts =>
    Undisturbed (owed (owed debt gap) first.gap ++ endings (keyText first more)) parts

instance Undisturbed.decidable :
    (debt : List LineEnding) → (parts : List Part) → Decidable (Undisturbed debt parts)
  | _, [] => inferInstanceAs (Decidable True)
  | debt, .piece p :: parts =>
    have := Undisturbed.decidable (owed (owed debt p.gap) p.text) parts
    inferInstanceAs (Decidable ((owed debt p.gap = [] ∨ '\n' ∉ p.text) ∧
      Undisturbed (owed (owed debt p.gap) p.text) parts))
  | debt, .key gap first more _ :: parts =>
    Undisturbed.decidable (owed (owed debt gap) first.gap ++ endings (keyText first more)) parts

/-! ## What stands behind an item -/

theorem isApart_of_isNewline {c : Char} (h : isNewline c = true) : isApart c = true ∧ c ≠ '$' := by
  simp only [isNewline, Bool.or_eq_true, beq_iff_eq] at h
  rcases h with rfl | rfl <;> decide

theorem isNewline_of_endings (debt : List LineEnding) :
    ∀ d ∈ debt.flatMap LineEnding.text, isNewline d = true := by
  intro d mem
  rcases mem_endings_text mem with rfl | rfl <;> rfl

theorem follows_settle (debt : List LineEnding) (text : List Char) {cs ds : List Char}
    (h : Follows cs ds) : Follows (text ++ cs) ((settle debt text).1 ++ ds) := by
  rcases settle_cases debt text with same | ⟨a, c, b, rfl, newline, settled⟩
  · rw [same]
    exact h.append text
  · rw [settled, List.append_assoc, List.append_assoc, List.append_assoc]
    have own : isNewline c = true := by rcases newline with rfl | rfl <;> rfl
    refine Follows.append a (follows_of_apart ?_ ?_)
    · intro d mem
      obtain rfl : c = d := by simpa using mem
      exact (isApart_of_isNewline own).1
    · intro d mem
      refine isApart_of_isNewline ?_
      cases endings : debt.flatMap LineEnding.text with
      | nil =>
        rw [endings] at mem
        obtain rfl : c = d := by simpa using mem
        exact own
      | cons e es =>
        rw [endings] at mem
        obtain rfl : e = d := by simpa using mem
        exact isNewline_of_endings debt e (by rw [endings]; simp)

theorem follows_moved (last : List Char) (debt : List LineEnding) (parts : List Part) :
    Follows (spell last (parts.flatMap Part.pieces)) (moved last debt parts) := by
  induction parts generalizing debt with
  | nil =>
    have behind : Follows [] ((settle debt last).2.flatMap LineEnding.text) :=
      follows_of_apart (by simp) fun d mem =>
        isApart_of_isNewline (isNewline_of_endings _ d (List.mem_of_mem_head? mem))
    have whole := follows_settle debt last behind
    rwa [List.append_nil] at whole
  | cons part parts ih =>
    cases part with
    | piece p => exact follows_settle debt p.gap (follows_settle _ p.text (ih _))
    | key gap first more content =>
      refine follows_settle debt gap (follows_of_apart ?_ ?_)
      · intro c mem
        obtain rfl : '(' = c := by simpa using mem
        decide
      · intro d mem
        obtain rfl : '(' = d := by simpa using mem
        decide

/-! ## One gap and one item -/

theorem behindGap?_settle {newline : Bool} {gap rest rest' : List Char} (debt : List LineEnding)
    (h : behindGap? newline (gap ++ rest) = some rest) (nonempty : rest ≠ [])
    (opens : Opens rest rest') (begins : Begins rest') :
    behindGap? newline ((settle debt gap).1 ++ rest') = some rest' := by
  have other := behindGap?_opens h nonempty opens begins
  rcases settle_cases debt gap with same | ⟨a, c, b, rfl, newline, settled⟩
  · rw [same]
    exact other
  · rw [settled]
    have own : isNewline c = true := by rcases newline with rfl | rfl <;> rfl
    exact behindGap?_newlines other own (isNewline_of_endings debt)

theorem behindGap?_settleLast {newline : Bool} {last : List Char} (debt : List LineEnding)
    (h : behindGap? newline last = some []) :
    behindGap? newline (settleLast debt last) = some [] := by
  refine behindGap?_end ?_ (isNewline_of_endings _)
  rcases settle_cases debt last with same | ⟨a, c, b, rfl, newline, settled⟩
  · rw [same]
    exact h
  · rw [settled]
    have own : isNewline c = true := by rcases newline with rfl | rfl <;> rfl
    rw [← List.append_nil (a ++ c :: b)] at h
    have more := behindGap?_newlines h own (isNewline_of_endings debt)
    rwa [List.append_nil] at more

theorem begins_settle {text rest : List Char} (debt : List LineEnding)
    (h : Begins (text ++ rest)) (nonempty : text ≠ []) (rest' : List Char) :
    Begins ((settle debt text).1 ++ rest') := by
  obtain ⟨c, cs, rfl⟩ := List.exists_cons_of_ne_nil nonempty
  have own := h c rfl
  have lineFeed : c ≠ '\n' := by
    rintro rfl
    cases own.1
  have carriageReturn : c ≠ '\r' := by
    rintro rfl
    cases own.1
  rw [settle_cons debt lineFeed carriageReturn]
  intro d mem
  obtain rfl : c = d := by simpa using mem
  exact own

theorem behindGap?_piece {newline : Bool} {p : Piece} {rest rest' : List Char}
    (debt debt' : List LineEnding)
    (h : behindGap? newline (p.gap ++ (p.text ++ rest)) = some (p.text ++ rest))
    (nonempty : p.text ≠ []) (follows : Follows rest rest') :
    behindGap? newline ((settle debt p.gap).1 ++ ((settle debt' p.text).1 ++ rest')) =
      some ((settle debt' p.text).1 ++ rest') := by
  have more : p.text ++ rest ≠ [] := by simp [nonempty]
  exact behindGap?_settle debt h more (follows_settle debt' p.text follows).alike.near.opens
    (begins_settle debt' (behindGap?_begins h more) nonempty rest')

theorem not_rest?_settle {goal : Lexical} {text rest behind rest' : List Char}
    {debt : List LineEnding} (h : goal.rest? (text ++ rest) = some rest)
    (owes : debt.flatMap LineEnding.text ≠ []) (lineFeed : '\n' ∈ text)
    (whole : (settle debt text).1 ++ behind = text ++ rest') :
    goal.rest? (text ++ rest') ≠ some rest' := by
  rcases settle_cases debt text with same | ⟨a, c, b, rfl, newline, settled⟩
  · have settles := settle_snd debt text
    rw [same, owed, if_pos lineFeed] at settles
    exact absurd (by rw [show debt = [] from settles]; rfl) owes
  · rw [settled] at whole
    rw [← whole]
    exact rest?_newlines h (isNewline_of_endings debt) owes whole

/-! ## All items -/

theorem none_notMem_endings (text : List Char) : LineEnding.none ∉ endings text := by
  unfold endings heads
  fun_induction cut text with
  | case1 => simp
  | case2 cs ih => simpa using ih
  | case3 cs ih => simpa using ih
  | case4 c cs crlf lf none ih => simp
  | case5 c cs crlf lf line lines some ih => simpa [some] using ih

theorem none_notMem_owed {debt : List LineEnding} (h : LineEnding.none ∉ debt)
    (text : List Char) : LineEnding.none ∉ owed debt text := by
  rw [owed]
  split
  · simp
  · exact h

theorem text_ne_nil {debt : List LineEnding} (h : LineEnding.none ∉ debt) (owes : debt ≠ []) :
    debt.flatMap LineEnding.text ≠ [] := by
  obtain ⟨ending, debt, rfl⟩ := List.exists_cons_of_ne_nil owes
  cases ending with
  | none => exact absurd (List.mem_cons_self ..) h
  | lineFeed => simp [LineEnding.text]
  | carriageReturnLineFeed => simp [LineEnding.text]

theorem rest?_parenthesis (rest : List Char) :
    Lexical.token.rest? (['('] ++ rest) = some rest := rfl

theorem behindGap?_quoted {p : Piece} {rest content : List Char} (debt : List LineEnding)
    (skips : if p.goal.gapped then behindGap? false (p.gap ++ (p.text ++ rest)) =
      some (p.text ++ rest) else p.gap = [])
    (reads : p.goal.rest? (p.text ++ rest) = some rest) (quoted : IsQuoted content)
    (rest' : List Char) :
    behindGap? false ((settle debt p.gap).1 ++ (content ++ rest')) = some (content ++ rest') := by
  have head : (content ++ rest').head? = some '"' := by simp [List.head?_append, quoted.head]
  have opens (cs : List Char) : Opens cs (content ++ rest') := opens_of_head head (by decide)
  have begins : Begins (content ++ rest') := begins_of_head head (by decide)
  split at skips
  next gapped =>
    have nonempty : p.text ++ rest ≠ [] := by simp [Item.text_ne_nil reads (Lexical.ne_markupText gapped)]
    exact behindGap?_settle debt skips nonempty (opens _) begins
  next gapped =>
    have comments : ¬Comments false (content ++ rest') := by
      intro comments
      rcases (opens []).1 false comments with ⟨_, same⟩ | ⟨_, same⟩ | ⟨_, same⟩ | ⟨start, -⟩
      · cases same
      · cases same
      · cases same
      · cases start
    rw [skips, behindGap?]
    exact congrArg _ (skipGap_here begins comments false 0)

/-- The moved parts have the items of the parts exactly where no item goes on in the next line
while line endings are owed. -/
theorem hasItems_moved {last : List Char} {newline : Bool} {debt : List LineEnding}
    {parts : List Part} (sound : ∀ part ∈ parts, part.Sound)
    (reads : Reads last newline (parts.flatMap Part.pieces)) (h : LineEnding.none ∉ debt) :
    HasItems newline (moved last debt parts) (parts.flatMap Part.items) ↔
      Undisturbed debt parts := by
  induction parts generalizing newline debt with
  | nil =>
    refine iff_of_true ⟨[], _, rfl, ?_, rfl⟩ trivial
    exact behindGap?_settleLast debt reads
  | cons part parts ih =>
    have soundParts : ∀ part ∈ parts, part.Sound := fun p mem => sound p (by simp [mem])
    cases part with
    | piece p =>
      obtain ⟨skips, item, more⟩ := reads
      have follows := follows_moved last (owed (owed debt p.gap) p.text) parts
      have skips' : if p.goal.gapped then
          behindGap? newline ((settle debt p.gap).1 ++ ((settle (owed debt p.gap) p.text).1 ++
            moved last (owed (owed debt p.gap) p.text) parts)) =
              some ((settle (owed debt p.gap) p.text).1 ++
                moved last (owed (owed debt p.gap) p.text) parts)
          else (settle debt p.gap).1 = [] := by
        split at skips
        next gapped =>
          rw [if_pos gapped]
          exact behindGap?_piece _ _ skips (Item.text_ne_nil item (Lexical.ne_markupText gapped)) follows
        next gapped =>
          rw [if_neg gapped, skips]
          rfl
      have owedBehind := none_notMem_owed (none_notMem_owed h p.gap) p.text
      by_cases calm : owed debt p.gap = [] ∨ '\n' ∉ p.text
      · have same : (settle (owed debt p.gap) p.text).1 = p.text := by
          rcases calm with none | plain
          · rw [none, settle_nil]
          · rw [settle_plain _ plain]
        rw [same] at skips'
        rw [moved, same, Undisturbed]
        refine (hasItems_cons_of_rest? p.goal _ skips' (rest?_follows item follows) _).trans ?_
        exact (ih soundParts more owedBehind).trans ⟨fun rest => ⟨calm, rest⟩, And.right⟩
      · refine iff_of_false (fun again => ?_) fun undisturbed => calm undisturbed.1
        obtain ⟨owes, lineFeed⟩ := not_or.1 calm
        obtain ⟨rest', whole, item', -⟩ := (hasItems_cons p.goal _ skips' p.text _).1 again
        rw [whole] at item'
        refine not_rest?_settle item ?_ (not_not.1 lineFeed) whole item'
        exact text_ne_nil (none_notMem_owed h p.gap) owes
    | key gap first more content =>
      obtain ⟨skips, -, inner⟩ := reads
      obtain ⟨-, quoted⟩ := sound (.key gap first more content) (by simp)
      have behind := inner.behind
      obtain ⟨skipsFirst, itemFirst, -⟩ := inner
      rw [moved, Undisturbed]
      have parenthesis (rest : List Char) :
          behindGap? newline ((settle debt gap).1 ++ (['('] ++ rest)) = some (['('] ++ rest) :=
        behindGap?_settle debt skips (by simp) (opens_of_head (d := '(') rfl (by decide))
          (begins_of_head (d := '(') rfl (by decide))
      refine (hasItems_cons_of_rest? .token _ (parenthesis _) (rest?_parenthesis _) _).trans ?_
      have text := behindGap?_quoted (owed debt gap) skipsFirst itemFirst quoted
        (moved last (owed (owed debt gap) first.gap ++ endings (keyText first more)) parts)
      refine (hasItems_cons_of_rest? .token _ text (quoted.reads _) _).trans (ih soundParts behind ?_)
      rw [List.mem_append, not_or]
      exact ⟨none_notMem_owed (none_notMem_owed h gap) first.gap, none_notMem_endings _⟩

/-! ## Transformed code -/

/-- The key of each part stands from its first item to its last, and the keys are those that give
way to the new contents. In front of the parts there is nothing but a line for an interpreter. -/
structure Aligned (line : List Char) (parts : List Part) (last code : List Char)
    (replaced : List (Range × List Char)) : Prop where
  single : ∀ c ∈ line, isNewline c = false
  whole : code = line ++ spell last (parts.flatMap Part.pieces)
  reads : Reads last true (parts.flatMap Part.pieces)
  keys : ∀ gap first more content, Part.key gap first more content ∈ parts →
    Tight (keyText first more)
  replaced : ranges [] (Portion.patches line (parts.flatMap Part.portions)) = replaced

theorem spell_eq (last : List Char) (ps : List Piece) : spell last ps = spell [] ps ++ last := by
  induction ps with
  | nil => rfl
  | cons p ps ih => rw [spell, spell, ih, List.append_assoc, List.append_assoc]

theorem old_portions (last : List Char) (parts : List Part) :
    (parts.flatMap Part.portions).flatMap Portion.old ++ last =
      spell last (parts.flatMap Part.pieces) := by
  induction parts with
  | nil => rfl
  | cons part parts ih =>
    rw [List.flatMap_cons, List.flatMap_append, List.append_assoc, ih, List.flatMap_cons,
      spell_append]
    cases part with
    | piece p => simp [Part.portions, Portion.old, Part.pieces, spell]
    | key gap first more content =>
      simp [Part.portions, Portion.old, Part.pieces, spell, keyText, spell_eq (spell last _) more]

theorem apart_gap {last pending : List Char} {newline : Bool} {p : Piece} {ps : List Piece}
    (reads : Reads last newline (p :: ps)) (h : Apart pending (spell last (p :: ps))) :
    Apart (pending ++ p.gap) (p.text ++ spell last ps) := by
  obtain ⟨skips, item, -⟩ := reads
  split at skips
  next gapped =>
    intro _ head
    have nonempty : p.text ++ spell last ps ≠ [] := by
      simp [Item.text_ne_nil item (Lexical.ne_markupText gapped)]
    have begins := (behindGap?_begins skips nonempty '\n' head).1
    cases begins
  next gapped =>
    rw [spell, skips, List.nil_append] at h
    rwa [skips, List.append_nil]

theorem apart_item {last pending : List Char} {newline : Bool} {p : Piece} {ps : List Piece}
    (reads : Reads last newline (p :: ps)) (h : Apart pending (spell last (p :: ps))) :
    Apart (pending ++ p.gap ++ p.text) (spell last ps) := by
  have gap := apart_gap reads h
  by_cases empty : p.text = []
  · rw [empty, List.append_nil]
    rwa [empty, List.nil_append] at gap
  · intro ends
    rw [List.getLast?_append_of_ne_nil _ empty] at ends
    exact rest?_apart reads.2.1 ends

theorem weave_portions {last : List Char} (debt : List LineEnding) {newline : Bool}
    (pending : List Char) {parts : List Part}
    (reads : Reads last newline (parts.flatMap Part.pieces))
    (apart : Apart pending (spell last (parts.flatMap Part.pieces))) :
    weave (Portion.behind pending last (parts.flatMap Part.portions)) debt
        (Portion.patches pending (parts.flatMap Part.portions)) =
      (settle debt pending).1 ++ moved last (owed debt pending) parts := by
  induction parts generalizing debt newline pending with
  | nil =>
    rw [List.flatMap_nil, Portion.patches, Portion.behind, weave, settle_append debt last apart,
      moved, settleLast, settle_snd, List.append_assoc]
  | cons part parts ih =>
    cases part with
    | piece p =>
      have rest := ih debt (pending ++ p.gap ++ p.text) reads.2.2 (apart_item reads apart)
      rw [← settle_snd, settle_append debt p.text (apart_gap reads apart).left,
        settle_append debt p.gap apart.left] at rest
      simp only [settle_snd, List.append_assoc] at rest
      simpa [Part.portions, Portion.patches, Portion.behind, moved] using rest
    | key gap first more content =>
      have rest := ih (owed (owed (owed debt pending) gap) first.gap ++ endings (keyText first more))
        [] (Reads.behind reads.2.2) (fun ends => by cases ends)
      have parenthesis (text : List Char) := settle_append debt (a := text) ('(' :: first.gap)
        fun _ => by simp
      simp only [List.flatMap_cons, Part.portions, List.cons_append, List.nil_append,
        Portion.patches, Portion.behind, weave, List.append_assoc]
      rw [← List.append_assoc pending, parenthesis, settle_append debt gap apart.left,
        settle_cons _ (by decide) (by decide)]
      simp only [settle_snd]
      rw [rest, moved]
      simp [settle, owed]

theorem isQuoted_of_mem {line : List Char} {parts : List Part} {calls : List Call}
    {entries : List Entry}
    (h : ranges [] (Portion.patches line (parts.flatMap Part.portions)) =
      replacements calls entries) {gap : List Char} {first : Piece} {more : List Piece}
    {content : List Char} (mem : Part.key gap first more content ∈ parts) : IsQuoted content := by
  have changed : .changed (keyText first more) content ∈ parts.flatMap Part.portions :=
    List.mem_flatMap.2 ⟨_, mem, by simp [Part.portions]⟩
  have patch : content ∈ (Portion.patches line _).map Patch.content :=
    Portion.content_mem_patches changed
  rw [← content_ranges [], h, replacements, List.map_map] at patch
  obtain ⟨found, -, rfl⟩ := List.mem_map.1 patch
  exact isQuoted_quoteChars _

theorem sound_patches_portions {parts : List Part}
    (keys : ∀ gap first more content, Part.key gap first more content ∈ parts →
      Tight (keyText first more)) (pending : List Char) :
    ∀ p ∈ Portion.patches pending (parts.flatMap Part.portions), p.Sound := by
  intro p mem
  obtain ⟨part, inside, changed⟩ := List.mem_flatMap.1 (Portion.mem_patches mem)
  cases part with
  | piece q => simp [Part.portions] at changed
  | key gap first more content =>
    simp only [Part.portions, List.mem_cons, reduceCtorEq, List.not_mem_nil, false_or, or_false,
      Portion.changed.injEq] at changed
    have key := keys gap first more content inside
    rw [← changed.1] at key
    exact ⟨key.nonempty, key.head_ne (by decide), key.last_ne (by decide)⟩

/-- Transformed code has the items of the script, with one quoted text for the items of each key,
exactly where no item goes on in the next line while line endings of keys are owed. -/
theorem transformed_items {dialect : Dialect} {moduleId code : String} {extraction : Extraction}
    (extracted : extract dialect moduleId code = .ok extraction) {line : List Char}
    {parts : List Part} {last : List Char}
    (aligned : Aligned line parts last code.toList
      (replacements (recorded dialect code) extraction.entries)) :
    ∃ script, extraction.code.toList = line ++ script ∧
      (HasItems true script (parts.flatMap Part.items) ↔ Undisturbed [] parts) := by
  refine ⟨moved last [] parts, ?_, hasItems_moved ?_ aligned.reads (by simp)⟩
  · have apart : Apart line (spell last (parts.flatMap Part.pieces)) := by
      intro ends
      have own := aligned.single '\r' (List.mem_of_getLast? ends)
      cases own
    have whole := Portion.joined_patches line last (parts.flatMap Part.portions)
    rw [old_portions, ← aligned.whole] at whole
    rw [code_woven extracted (sound_patches_portions aligned.keys line) whole.symm
      aligned.replaced, weave_portions [] line aligned.reads apart, settle_nil]
    simp [owed]
  · intro part mem
    cases part with
    | piece p => trivial
    | key gap first more content =>
      exact ⟨aligned.keys gap first more content mem, isQuoted_of_mem aligned.replaced mem⟩

/-! ## A template behind a key -/

def notice (gap : String) : String :=
  "import \x7b localize \x7d from 'nls';\nlocalize(\x7b\n  key: 'k'\n\x7d," ++ gap ++ "\x60a\nb\x60);"

def noticeExtraction (gap text : String) : Extraction :=
  ⟨"import \x7b localize \x7d from 'nls';\nlocalize(\"%%NLS:m#k%%\"," ++ gap ++ text ++ ");",
    [.ofCall .blank "m" (.described "k" []) "a\nb"]⟩

def noticeParts (gap : String) : List Part :=
  [.piece (Piece.token "" "import"), .piece (Piece.token " " "\x7b"), .piece (Piece.token " " "localize"),
    .piece (Piece.token " " "\x7d"), .piece (Piece.token " " "from"), .piece (Piece.token " " "'nls'"),
    .piece (Piece.token "" ";"), .piece (Piece.token "\n" "localize"),
    .key [] (Piece.token "" "\x7b")
      [Piece.token "\n  " "key", Piece.token "" ":", Piece.token " " "'k'", Piece.token "\n" "\x7d"]
      (quoteChars "%%NLS:m#k%%".toList),
    .piece (Piece.token "" ","), .piece (Piece.token gap "\x60"), .piece ⟨[], .template, "a\nb\x60".toList⟩,
    .piece (Piece.token "" ")"), .piece (Piece.token "" ";")]

theorem transformed_items_notice :
    extract ⟨true, false⟩ "m" (notice "\n  ") = .ok (noticeExtraction "\n\n\n  " "\x60a\nb\x60") ∧
      Aligned [] (noticeParts "\n  ") [] (notice "\n  ").toList
        (replacements (recorded ⟨true, false⟩ (notice "\n  "))
          (noticeExtraction "\n\n\n  " "\x60a\nb\x60").entries) ∧
      HasItems true (noticeExtraction "\n\n\n  " "\x60a\nb\x60").code.toList
        ((noticeParts "\n  ").flatMap Part.items) := by
  have extracted : extract ⟨true, false⟩ "m" (notice "\n  ") =
      .ok (noticeExtraction "\n\n\n  " "\x60a\nb\x60") := by
    decide +kernel
  have aligned : Aligned [] (noticeParts "\n  ") [] (notice "\n  ").toList
      (replacements (recorded ⟨true, false⟩ (notice "\n  "))
        (noticeExtraction "\n\n\n  " "\x60a\nb\x60").entries) := by
    refine ⟨by simp, by decide +kernel, by decide +kernel, ?_, by decide +kernel⟩
    intro gap first more content mem
    simp only [noticeParts, List.mem_cons, reduceCtorEq, Part.key.injEq, List.not_mem_nil,
      false_or, or_false] at mem
    obtain ⟨rfl, rfl, rfl, rfl⟩ := mem
    exact ⟨by decide, by decide, by decide⟩
  obtain ⟨script, whole, same⟩ := transformed_items extracted aligned
  rw [List.nil_append] at whole
  exact ⟨extracted, aligned, whole ▸ same.2 (by decide +kernel)⟩

/-- The line ends of the key come back in the template of the message. -/
theorem transformed_template :
    extract ⟨true, false⟩ "m" (notice " ") = .ok (noticeExtraction " " "\x60a\n\n\nb\x60") ∧
      (notice " ").toList = spell [] ((noticeParts " ").flatMap Part.pieces) ∧
      Reads [] true ((noticeParts " ").flatMap Part.pieces) ∧
      ¬HasItems true (noticeExtraction " " "\x60a\n\n\nb\x60").code.toList
        ((noticeParts " ").flatMap Part.items) := by
  have reads : Reads [] true ((noticeParts " ").flatMap Part.pieces) := by decide +kernel
  refine ⟨by decide +kernel, by decide +kernel, reads, ?_⟩
  have whole : (noticeExtraction " " "\x60a\n\n\nb\x60").code.toList =
      moved [] [] (noticeParts " ") := by
    decide +kernel
  rw [whole, hasItems_moved ?_ reads (by simp)]
  · decide +kernel
  · intro part mem
    cases part with
    | piece p => trivial
    | key gap first more content =>
      simp only [noticeParts, List.mem_cons, reduceCtorEq, Part.key.injEq, List.not_mem_nil,
        false_or, or_false] at mem
      obtain ⟨rfl, rfl, rfl, rfl⟩ := mem
      exact ⟨⟨by decide, by decide, by decide⟩, isQuoted_quoteChars _⟩

end BundlePrep.Message
