import BundlePrep.Proofs.Message.Replacing
import BundlePrep.Proofs.Message.Tiles

/-!
# What gives way in built code

The scan of some code puts a number for a placeholder, and the word for nothing for a message behind
it. What gives way is a quoted text that ends where a reader of tokens finds the end of it, if one
begins there.
-/

set_option autoImplicit false

namespace BundlePrep.Message

open BundlePrep.Script BundlePrep.Text

def Slot.portions (build : Build) (number : Nat) (slot : Slot) : List Portion :=
  .changed slot.placeholder.text (Put.number number).text ::
    slot.fallback.elim [] fun f =>
      [.kept f.comma,
        if blanks build slot.placeholder.value f.message then .changed f.message.text Put.null.text
        else .kept f.message.text]

/-- What becomes of a segment. -/
def Segment.portions (numbers : Numbers) (build : Build) : Segment → List Portion
  | .char c => [.kept [c]]
  | .slot place =>
    (numbers.number? place.placeholder.value).elim [.kept place.text] (place.portions build)

/-- The texts of some code that give way, each with what stands in front of it. -/
def changes (numbers : Numbers) (build : Build) (code : List Char) : List Patch :=
  Portion.patches [] ((segments code).flatMap (Segment.portions numbers build))

theorem old_slot (build : Build) (number : Nat) (slot : Slot) :
    (slot.portions build number).flatMap Portion.old = slot.text := by
  rw [Slot.portions, Slot.text, List.flatMap_cons]
  cases slot.fallback with
  | none => rfl
  | some f =>
    simp only [Option.elim_some]
    split <;> simp [Portion.old]

theorem new_slot (build : Build) (number : Nat) (slot : Slot) :
    (slot.portions build number).flatMap Portion.new =
      numbered build slot.placeholder.value number slot := by
  rw [Slot.portions, numbered, List.flatMap_cons]
  cases slot.fallback with
  | none => rfl
  | some f =>
    simp only [Option.elim_some]
    split <;> simp [Portion.new, Put.text]

theorem old_segments (numbers : Numbers) (build : Build) (ss : List Segment) :
    (ss.flatMap (Segment.portions numbers build)).flatMap Portion.old =
      ss.flatMap Segment.text := by
  rw [List.flatMap_assoc]
  refine List.flatMap_congr fun s _ => ?_
  cases s with
  | char c => rfl
  | slot place =>
    rw [Segment.portions]
    cases numbers.number? place.placeholder.value with
    | none => exact List.append_nil place.text
    | some number => exact old_slot build number place

theorem new_segments (numbers : Numbers) (build : Build) (ss : List Segment) :
    (ss.flatMap (Segment.portions numbers build)).flatMap Portion.new =
      (inlineSegments numbers build ss).code := by
  rw [List.flatMap_assoc, code_inlineSegments]
  refine List.flatMap_congr fun s _ => ?_
  cases s with
  | char c => rfl
  | slot place =>
    rw [Segment.portions, inlineSegment, inlineSlot]
    cases numbers.number? place.placeholder.value with
    | none => exact List.append_nil place.text
    | some number => exact new_slot build number place

/-! ## Quoted texts that give way -/

structure Readable (q : Quoted) : Prop where
  quote : isQuote q.quote = true
  body : Body q.quote q.body
  whole : q.quote = '\x60' → ¬['$', '{'] <:+: q.body

theorem Body.append {quote : Char} {w cs : List Char}
    (h : ∀ c ∈ w, c ≠ quote ∧ c ≠ '\\' ∧ c ≠ '\n') (body : Body quote cs) : Body quote (w ++ cs) := by
  induction w with
  | nil => exact body
  | cons c w ih =>
    obtain ⟨other, backslash, lineFeed⟩ := h c (List.mem_cons_self ..)
    exact .plain other backslash (fun same => absurd same lineFeed)
      (ih fun d mem => h d (List.mem_cons_of_mem c mem))

theorem body_of_placeholderBody? {quote : Char} {percents : Nat} {cs body rest : List Char}
    (h : placeholderBody? quote percents cs = some (body, rest)) : Body quote body := by
  fun_induction placeholderBody? quote percents cs generalizing body rest with
  | case1 => cases h
  | case2 => cases h
  | case3 percents c cs _ ih =>
    obtain ⟨⟨b, r⟩, found, same⟩ := Option.map_eq_some_iff.1 h
    obtain ⟨rfl, rfl⟩ := Prod.mk.inj same
    exact .escape c (ih found)
  | case4 =>
    obtain ⟨rfl, rfl⟩ := Prod.mk.inj (Option.some.inj h)
    exact .nil
  | case5 => cases h
  | case6 => cases h
  | case7 percents c cs _ other plain ih =>
    obtain ⟨⟨b, r⟩, found, same⟩ := Option.map_eq_some_iff.1 h
    obtain ⟨rfl, rfl⟩ := Prod.mk.inj same
    obtain ⟨backslash, lineFeed⟩ := not_or.1 plain
    exact .plain other backslash (fun same => absurd same lineFeed) (ih found)

theorem readable_of_placeholder? {cs rest : List Char} {q : Quoted}
    (h : placeholder? cs = some (q, rest)) : Readable q := by
  unfold placeholder? at h
  split at h
  · cases h
  next quote cs =>
    split at h
    next plain =>
      obtain ⟨flavor, -, found⟩ := List.exists_of_findSome?_eq_some h
      simp only [Option.bind_eq_bind, Option.bind_eq_some_iff, Option.pure_def] at found
      obtain ⟨inner, -, ⟨body, rest'⟩, read, same⟩ := found
      obtain ⟨rfl, -⟩ := Prod.mk.inj (Option.some.inj same)
      have letters : ∀ c ∈ flavor.opening.toList, c ≠ quote ∧ c ≠ '\\' ∧ c ≠ '\n' := by
        rcases plain with rfl | rfl <;> cases flavor <;> decide
      refine ⟨isQuote_of_plain plain, (body_of_placeholderBody? read).append letters, fun back => ?_⟩
      rcases plain with rfl | rfl <;> cases back
    next => cases h

theorem readable_of_blanks {build : Build} {placeholder : String} {cs rest : List Char} {q : Quoted}
    (h : message? cs = some (q, rest)) (blanked : blanks build placeholder q = true) : Readable q := by
  have none : ¬['$', '{'] <:+: q.body := by
    intro inside
    simp only [blanks, Bool.and_eq_true, Bool.not_eq_true', ← Bool.not_eq_true, occursIn_iff] at blanked
    obtain ⟨before, after, whole⟩ := inside
    exact blanked.2 ⟨q.quote :: before, after ++ [q.quote], by simp [Quoted.text, ← whole]⟩
  unfold message? at h
  split at h
  · cases h
  next quote cs =>
    split at h
    next quoted =>
      obtain ⟨⟨body, rest'⟩, read, same⟩ := Option.map_eq_some_iff.1 h
      obtain ⟨rfl, -⟩ := Prod.mk.inj same
      exact ⟨quoted, body_of_messageBody? read, fun _ => none⟩
    next => cases h

theorem readable_of_mem_changes {numbers : Numbers} {build : Build} {code : List Char} {p : Patch}
    (h : p ∈ changes numbers build code) :
    ∃ (q : Quoted) (put : Put), p.removed = q.text ∧ p.content = put.text ∧ Readable q := by
  obtain ⟨s, mem, inside⟩ := List.mem_flatMap.1 (Portion.mem_patches h)
  cases s with
  | char c => simp [Segment.portions] at inside
  | slot place =>
    obtain ⟨before, after, cut⟩ := List.append_of_mem mem
    obtain ⟨rest, found⟩ := exists_slot? cut
    simp only [slot?, Option.bind_eq_bind, Option.bind_eq_some_iff] at found
    obtain ⟨⟨q, behind⟩, first, found⟩ := found
    rw [Segment.portions] at inside
    cases known : numbers.number? place.placeholder.value with
    | none => simp [known] at inside
    | some number =>
      rw [known, Option.elim_some, Slot.portions, List.mem_cons] at inside
      rcases inside with own | message
      · obtain ⟨removed, content⟩ := Portion.changed.inj own
        refine ⟨place.placeholder, .number number, removed, content, ?_⟩
        split at found
        all_goals
          obtain ⟨rfl, -⟩ := Prod.mk.inj (Option.some.inj found)
          exact readable_of_placeholder? first
      · split at found
        next f behind' second =>
          obtain ⟨rfl, -⟩ := Prod.mk.inj (Option.some.inj found)
          simp only [fallback?, Option.bind_eq_bind, Option.bind_eq_some_iff, Option.pure_def] at second
          obtain ⟨⟨comma, _⟩, -, ⟨m, _⟩, read, same⟩ := second
          obtain ⟨rfl, -⟩ := Prod.mk.inj (Option.some.inj same)
          simp only [Option.elim_some, List.mem_cons, reduceCtorEq, List.not_mem_nil, or_false,
            false_or] at message
          split at message
          next blanked =>
            obtain ⟨removed, content⟩ := Portion.changed.inj message
            exact ⟨m, .null, removed, content, readable_of_blanks read blanked⟩
          next => cases message
        next =>
          obtain ⟨rfl, -⟩ := Prod.mk.inj (Option.some.inj found)
          cases message

/-! ## Where a quoted text ends -/

theorem scanQuoted_body {quote : Char} (plain : quote = '"' ∨ quote = '\x27') {body : List Char}
    (h : Body quote body) {acc tail written rest : List Char}
    (scanned : scanQuoted quote acc (body ++ quote :: tail) = some (written, rest)) : rest = tail := by
  induction h generalizing acc with
  | nil =>
    rw [List.nil_append, scanQuoted_plain, if_pos (by simp)] at scanned
    · exact (Prod.mk.inj (Option.some.inj scanned)).2.symm
    · rcases plain with rfl | rfl <;> decide
  | @escape cs c body ih =>
    rw [List.cons_append, List.cons_append, scanQuoted] at scanned
    · exact ih scanned
    · -- A line feed behind a carriage return would have to stand in the body.
      rintro cs' rfl same
      cases body with
      | nil => rcases plain with rfl | rfl <;> cases same
      | escape => cases same
      | plain _ _ lineFeed =>
        obtain ⟨rfl, -⟩ := List.cons.inj same
        rcases plain with rfl | rfl <;> cases lineFeed rfl
  | @plain c cs other backslash lineFeed _ ih =>
    rw [List.cons_append, scanQuoted_plain backslash, if_neg (by simpa using other)] at scanned
    split at scanned
    · cases scanned
    · exact ih scanned

theorem scanTemplate_body {body : List Char} (h : Body '\x60' body)
    (none : ¬['$', '{'] <:+: body) {valid : Bool} {tail : List Char} {pos : Nat} {stretch : Stretch}
    (scanned : scanTemplate valid (body ++ '\x60' :: tail) pos = some stretch) :
    stretch.rest = tail := by
  induction h generalizing valid pos with
  | nil => 
    rw [List.nil_append, scanTemplate] at scanned
    obtain rfl := Option.some.inj scanned
    rfl
  | @escape cs c body ih =>
    rw [List.cons_append, List.cons_append, scanTemplate] at scanned
    exact ih (fun inside => none (inside.trans (List.suffix_append ['\\', c] cs).isInfix)) scanned
  | @plain c cs other backslash lineFeed _ ih =>
    rw [List.cons_append, scanTemplate] at scanned
    · exact ih (fun inside => none (inside.trans (List.suffix_cons c cs).isInfix)) scanned
    · exact other
    · rintro cs' rfl same
      cases cs with
      | nil => cases same
      | cons d cs =>
        obtain ⟨rfl, -⟩ := List.cons.inj same
        exact none (List.prefix_append ['$', '{'] cs).isInfix
    · exact fun _ _ same => absurd same backslash

theorem Quoted.text_append (q : Quoted) (tail : List Char) :
    q.text ++ tail = q.quote :: (q.body ++ q.quote :: tail) := by
  simp [Quoted.text]

theorem rest?_readable {q : Quoted} (h : Readable q) (plain : q.quote = '"' ∨ q.quote = '\x27')
    {tail rest : List Char} (item : Lexical.token.rest? (q.text ++ tail) = some rest) : rest = tail := by
  have lexed (cs : List Char) : lexeme? (q.quote :: cs) 0 = textLexeme q.quote cs 0 := by
    rcases plain with same | same <;> rw [same] <;> rfl
  rw [q.text_append, Lexical.rest?, lexed] at item
  obtain ⟨lexeme, found, rfl⟩ := Option.map_eq_some_iff.1 item
  simp only [textLexeme, Option.bind_eq_bind, Option.bind_eq_some_iff] at found
  obtain ⟨⟨written, behind⟩, scanned, ⟨_, -, same⟩⟩ := found
  obtain rfl := Option.some.inj same
  exact scanQuoted_body plain h.body scanned

end BundlePrep.Message
