import BundlePrep.Proofs.Message.Value

/-!
# Placeholders that are replaced

A placeholder that is a token of a script gives way to the number of its message, unless the scan has
gone over its beginning: the token stands where a message of the placeholder in front of it is looked
for, or inside a text that was taken for a placeholder or a message.
-/

set_option autoImplicit false

namespace BundlePrep.Message

open BundlePrep.Script (Item Layout Lexical Piece spell)

/-- A quoted text that spells the beginning and the end of a placeholder without escapes. -/
structure Literal (q : Quoted) : Prop where
  plain : q.quote = '"' ∨ q.quote = '\x27'
  spelled : ∃ flavor inner, Whole inner ∧ q.body = (Flavor.opening flavor).toList ++ (inner ++ ['%', '%'])

/-- The scan of some code takes a quoted text in a place, and the number of its message is put there,
in front of what becomes of the message behind it. -/
def Replaced (numbers : Numbers) (build : Build) (code front : List Char) (q : Quoted)
    (number : Nat) : Prop :=
  ∃ before slot after, segments code = before ++ .slot slot :: after ∧
    before.flatMap Segment.text = front ∧ slot.placeholder = q ∧
    (inlineNumbers numbers build code).code = (inlineSegments numbers build before).code ++
      (numbered build q.value number slot ++ (inlineSegments numbers build after).code)

/-- The scan of some code takes a message in a place. -/
def Messaged (code front : List Char) : Prop :=
  ∃ before slot after f, segments code = before ++ .slot slot :: after ∧ slot.fallback = some f ∧
    before.flatMap Segment.text ++ (slot.placeholder.text ++ f.comma) = front

/-- The scan of some code takes a quoted text behind a gap in a slot. -/
def Slot.Takes (slot : Slot) (gap : List Char) (q : Quoted) : Prop :=
  gap = [] ∧ q = slot.placeholder ∨
    ∃ f, slot.fallback = some f ∧ gap = slot.placeholder.text ++ f.comma ∧ q = f.message

/-- A place lies inside a text that the scan of some code takes for a placeholder or a message. -/
def Within (code front : List Char) : Prop :=
  ∃ before slot after gap q x y, segments code = before ++ .slot slot :: after ∧
    slot.Takes gap q ∧ q.text = x ++ y ∧ x ≠ [] ∧ y ≠ [] ∧
    before.flatMap Segment.text ++ (gap ++ x) = front

def Covered (code front : List Char) : Prop :=
  ∃ before s after x y, segments code = before ++ s :: after ∧ Segment.text s = x ++ y ∧
    x ≠ [] ∧ y ≠ [] ∧ before.flatMap Segment.text ++ x = front

/-! ## Where segments begin -/

theorem exists_cut_or_reaches {ss : List Segment} {front rest : List Char}
    (whole : ss.flatMap Segment.text = front ++ rest) :
    (∃ before after, ss = before ++ after ∧ before.flatMap Segment.text = front ∧
      after.flatMap Segment.text = rest) ∨
    ∃ before s after x y, ss = before ++ s :: after ∧ Segment.text s = x ++ y ∧ x ≠ [] ∧ y ≠ [] ∧
      before.flatMap Segment.text ++ x = front := by
  induction ss generalizing front with
  | nil =>
    obtain ⟨rfl, rfl⟩ := List.append_eq_nil_iff.1 (show front ++ rest = [] from whole.symm)
    exact .inl ⟨[], [], rfl, rfl, rfl⟩
  | cons s ss ih =>
    rw [List.flatMap_cons] at whole
    rcases List.append_eq_append_iff.1 whole with ⟨x, rfl, more⟩ | ⟨y, cut, rfl⟩
    · rcases ih more with ⟨before, after, rfl, rfl, rfl⟩ | ⟨before, t, after, x', y, rfl, rest'⟩
      · exact .inl ⟨s :: before, after, rfl, rfl, rfl⟩
      · obtain ⟨text, hx, hy, rfl⟩ := rest'
        exact .inr ⟨s :: before, t, after, x', y, rfl, text, hx, hy, by simp⟩
    · by_cases first : front = []
      · subst first
        exact .inl ⟨[], s :: ss, rfl, rfl, by rw [List.flatMap_cons, cut, List.nil_append]⟩
      by_cases last : y = []
      · subst last
        rw [List.append_nil] at cut
        exact .inl ⟨[s], ss, rfl, by simp [cut], by simp⟩
      · exact .inr ⟨[], s, ss, front, y, rfl, cut, first, last, rfl⟩

theorem not_covered_of_cut {code : List Char} {before after : List Segment}
    (cut : segments code = before ++ after) : ¬Covered code (before.flatMap Segment.text) := by
  rintro ⟨before', s, after', x, y, cut', text, hx, hy, front⟩
  rw [cut] at cut'
  rcases List.append_eq_append_iff.1 cut' with ⟨t, rfl, -⟩ | ⟨t, rfl, split⟩
  · rw [List.flatMap_append, List.append_assoc, List.append_right_eq_self] at front
    exact hx (List.append_eq_nil_iff.1 front).2
  · cases t with
    | nil =>
      rw [List.append_nil, List.append_right_eq_self] at front
      exact hx front
    | cons s' t =>
      obtain ⟨rfl, -⟩ := List.cons.inj split
      simp only [List.flatMap_append, List.flatMap_cons, List.append_cancel_left_eq, text,
        List.append_assoc] at front
      exact hy (List.append_eq_nil_iff.1 (List.append_right_eq_self.1 front.symm)).1

theorem segments_eq_cons {code : List Char} {s : Segment} {ss : List Segment}
    (h : segments code = s :: ss) :
    (∀ slot, s = .slot slot → ∃ rest, slot? code = some (slot, rest)) ∧
      ∃ rest, code = s.text ++ rest ∧ segments rest = ss := by
  cases found : slot? code with
  | some r =>
    obtain ⟨slot, rest⟩ := r
    rw [segments_slot found] at h
    obtain ⟨rfl, rfl⟩ := List.cons.inj h
    refine ⟨fun _ same => ⟨rest, by rw [Segment.slot.inj same]⟩, rest, slot?_eq_some found, rfl⟩
  | none =>
    cases code with
    | nil =>
      rw [segments_nil] at h
      cases h
    | cons c code =>
      rw [segments_char found] at h
      obtain ⟨rfl, rfl⟩ := List.cons.inj h
      exact ⟨nofun, code, rfl, rfl⟩

theorem segments_behind {code rest : List Char} {before after : List Segment}
    (cut : segments code = before ++ after) (whole : code = before.flatMap Segment.text ++ rest) :
    segments rest = after := by
  induction before generalizing code with
  | nil => rwa [whole] at cut
  | cons s before ih =>
    obtain ⟨-, behind, rfl, more⟩ := segments_eq_cons cut
    rw [List.flatMap_cons, List.append_assoc, List.append_cancel_left_eq] at whole
    exact ih more whole

theorem exists_slot? {code : List Char} {before after : List Segment} {slot : Slot}
    (cut : segments code = before ++ .slot slot :: after) :
    ∃ rest, slot? (slot.text ++ after.flatMap Segment.text) = some (slot, rest) := by
  have whole := flatMap_segments code
  rw [cut, List.flatMap_append] at whole
  exact (segments_eq_cons (segments_behind cut whole.symm)).1 slot rfl

theorem separates_of_slot? {cs rest : List Char} {slot : Slot} {f : Fallback}
    (h : slot? cs = some (slot, rest)) (fallback : slot.fallback = some f) : Separates f.comma := by
  simp only [slot?, Option.bind_eq_bind, Option.bind_eq_some_iff] at h
  obtain ⟨⟨q, behind⟩, -, h⟩ := h
  split at h
  next f' behind' found =>
    obtain ⟨rfl, -⟩ := Prod.mk.inj (Option.some.inj h)
    obtain rfl := Option.some.inj fallback
    exact separates_of_fallback? found
  next =>
    obtain ⟨rfl, -⟩ := Prod.mk.inj (Option.some.inj h)
    cases fallback

/-! ## What reaches over a quoted text -/

theorem Slot.takes_of_split {slot : Slot} {x y : List Char} {c : Char}
    (text : slot.text = x ++ c :: y) (nonempty : x ≠ []) (quoted : isQuote c = true)
    (separates : ∀ f, slot.fallback = some f → Separates f.comma) :
    (∃ f, slot.fallback = some f ∧ x = slot.placeholder.text ++ f.comma) ∨
      ∃ gap q x' y', slot.Takes gap q ∧ q.text = x' ++ y' ∧ x' ≠ [] ∧ y' ≠ [] ∧ x = gap ++ x' := by
  have behindPlaceholder (x' : List Char) (cut : x = slot.placeholder.text ++ x') :
      (∃ f, slot.fallback = some f ∧ x = slot.placeholder.text ++ f.comma) ∨
        ∃ gap q x' y', slot.Takes gap q ∧ q.text = x' ++ y' ∧ x' ≠ [] ∧ y' ≠ [] ∧ x = gap ++ x' := by
    rw [Slot.text, cut, List.append_assoc, List.append_cancel_left_eq] at text
    cases fallback : slot.fallback with
    | none =>
      rw [fallback] at text
      simp at text
    | some f =>
      rw [fallback, Option.elim_some] at text
      rcases List.append_eq_append_iff.1 text with ⟨x'', rfl, inner⟩ | ⟨rest, comma, inner⟩
      · cases x'' with
        | nil => exact .inl ⟨f, rfl, by simp [cut]⟩
        | cons d x'' =>
          exact .inr ⟨slot.placeholder.text ++ f.comma, f.message, d :: x'', c :: y,
            .inr ⟨f, fallback, rfl, rfl⟩, inner, by simp, by simp, by simp [cut]⟩
      · cases rest with
        | nil => exact .inl ⟨f, rfl, by rw [cut, comma, List.append_nil]⟩
        | cons d rest =>
          obtain ⟨rfl, -⟩ := List.cons.inj inner
          have inside := (separates f fallback).not_quote (c := c) (by simp [comma])
          rw [quoted] at inside
          cases inside
  rcases List.append_eq_append_iff.1 text with ⟨x', cut, -⟩ | ⟨y', own, -⟩
  · exact behindPlaceholder x' cut
  · cases y' with
    | nil =>
      rw [List.append_nil] at own
      exact behindPlaceholder [] (by rw [own, List.append_nil])
    | cons d y' =>
      exact .inr ⟨[], slot.placeholder, x, d :: y', .inl ⟨rfl, rfl⟩, own, nonempty, by simp, rfl⟩

/-- Where a quoted text begins, a segment reaches over its beginning exactly if a message is taken
there, or if it stands inside a text that is taken. -/
theorem covered_iff {code front rest : List Char} {c : Char} (whole : code = front ++ c :: rest)
    (quoted : isQuote c = true) : Covered code front ↔ Messaged code front ∨ Within code front := by
  constructor
  · rintro ⟨before, s, after, x, y, cut, text, hx, hy, place⟩
    cases s with
    | char d =>
      rcases List.singleton_eq_append_iff.1 text with ⟨rfl, -⟩ | ⟨-, rfl⟩
      · exact absurd rfl hx
      · exact absurd rfl hy
    | slot slot =>
      obtain ⟨d, y, rfl⟩ := List.exists_cons_of_ne_nil hy
      have all := flatMap_segments code
      rw [cut, List.flatMap_append, List.flatMap_cons, text, ← List.append_assoc,
        ← List.append_assoc, place, whole, List.append_assoc, List.append_cancel_left_eq] at all
      obtain ⟨rfl, -⟩ := List.cons.inj all
      obtain ⟨rest', found⟩ := exists_slot? cut
      rcases Slot.takes_of_split text hx quoted fun f => separates_of_slot? found with
        ⟨f, fallback, rfl⟩ | ⟨gap, q, x', y', takes, inner, hx', hy', rfl⟩
      · exact .inl ⟨before, slot, after, f, cut, fallback, place⟩
      · exact .inr ⟨before, slot, after, gap, q, x', y', cut, takes, inner, hx', hy', place⟩
  · have nonempty (q : Quoted) : q.text ≠ [] := by simp [Quoted.text]
    rintro (⟨before, slot, after, f, cut, fallback, place⟩ |
      ⟨before, slot, after, gap, q, x, y, cut, takes, inner, hx, hy, place⟩)
    · refine ⟨before, .slot slot, after, _, f.message.text, cut, ?_, ?_, nonempty f.message, place⟩
      · simp [Segment.text, Slot.text, fallback]
      · simp [nonempty]
    · rcases takes with ⟨rfl, rfl⟩ | ⟨f, fallback, rfl, rfl⟩
      · refine ⟨before, .slot slot, after, x,
          y ++ slot.fallback.elim [] fun f => f.comma ++ f.message.text, cut, ?_, hx, ?_, place⟩
        · rw [Segment.text, Slot.text, inner, List.append_assoc]
        · simp [hy]
      · refine ⟨before, .slot slot, after, _, y, cut, ?_, ?_, hy, place⟩
        · simp [Segment.text, Slot.text, fallback, inner]
        · simp [hx]

/-! ## A placeholder that is a token -/

theorem placeholderBody?_literal {quote : Char} (hq : quote = '"' ∨ quote = '\x27')
    {inner : List Char} (whole : Whole inner) (line : OneLine quote (inner ++ ['%', '%']))
    (percents : Nat) (rest : List Char) :
    placeholderBody? quote percents (inner ++ '%' :: '%' :: quote :: rest) =
      some (inner ++ ['%', '%'], rest) := by
  induction whole generalizing percents with
  | nil =>
    have other : '%' ≠ quote := by rcases hq with rfl | rfl <;> decide
    have close : placeholderBody? quote (percents + 1 + 1) (quote :: rest) = some ([], rest) := by
      rw [placeholderBody?, if_pos rfl, if_pos (by omega)]
      rcases hq with rfl | rfl <;> simp
    rw [List.nil_append, placeholderBody?_other other (by decide) (by decide), if_pos rfl,
      placeholderBody?_other other (by decide) (by decide), if_pos rfl, close]
    rfl
  | escape c _ ih =>
    rw [List.cons_append, List.cons_append] at line ⊢
    have lineFeed : c ≠ '\n' := by
      rintro rfl
      cases line with
      | escape inline => cases inline
      | plain _ escape => exact absurd rfl escape
    rw [placeholderBody?_escape lineFeed, ih line.behindEscape]
    rfl
  | @plain c inner backslash _ ih =>
    rw [List.cons_append] at line ⊢
    generalize same : inner ++ ['%', '%'] = body at line ih
    cases line with
    | escape => exact absurd rfl backslash
    | plain other _ lineFeed _ line =>
      rw [placeholderBody?_other other backslash lineFeed, ih line, List.cons_append, same]
      rfl

theorem placeholder?_literal {q : Quoted} (literal : Literal q) (line : OneLine q.quote q.body)
    (rest : List Char) : placeholder? (q.text ++ rest) = some (q, rest) := by
  obtain ⟨quote, body⟩ := q
  obtain ⟨plain, flavor, inner, whole, spelled⟩ := literal
  dsimp only at plain line spelled
  subst spelled
  have backslash : '\\' ∉ (Flavor.opening flavor).toList := by cases flavor <;> decide
  have read := placeholderBody?_literal plain whole (line.behind backslash) 0 rest
  have shape : (Quoted.mk quote ((Flavor.opening flavor).toList ++ (inner ++ ['%', '%']))).text ++
      rest = quote :: ((Flavor.opening flavor).toList ++ (inner ++ '%' :: '%' :: quote :: rest)) := by
    simp [Quoted.text]
  rw [shape, placeholder?_opening plain, read]
  rfl

theorem code_inlineSegments_append (numbers : Numbers) (build : Build) (a b : List Segment) :
    (inlineSegments numbers build (a ++ b)).code =
      (inlineSegments numbers build a).code ++ (inlineSegments numbers build b).code := by
  simp only [code_inlineSegments, List.flatMap_append]

theorem code_inlineSlot {numbers : Numbers} {build : Build} {slot : Slot} {number : Nat}
    (known : numbers.number? slot.placeholder.value = some number) :
    (inlineSlot numbers build slot).code = numbered build slot.placeholder.value number slot := by
  rw [inlineSlot, known]

theorem number?_of_code_inlineSlot {numbers : Numbers} {build : Build} {slot : Slot} {number : Nat}
    (plain : slot.placeholder.quote = '"' ∨ slot.placeholder.quote = '\x27')
    (output : (inlineSlot numbers build slot).code =
      numbered build slot.placeholder.value number slot) :
    numbers.number? slot.placeholder.value = some number := by
  cases known : numbers.number? slot.placeholder.value with
  | none =>
    rw [inlineSlot, known] at output
    obtain ⟨d, ds, digits⟩ :=
      List.exists_cons_of_ne_nil (Nat.toDigits_ne_nil (n := number) (b := 10))
    have digit : d.isDigit = true :=
      Nat.isDigit_of_mem_toDigits (n := number) (by decide) (Nat.le_refl 10) (by simp [digits])
    rw [numbered, digits] at output
    obtain ⟨rfl, -⟩ := List.cons.inj
      (show slot.placeholder.quote :: _ = d :: _ from output)
    rcases plain with quote | quote <;> rw [quote] at digit <;> cases digit
  | some other =>
    rw [code_inlineSlot known, numbered, numbered, List.append_cancel_right_eq] at output
    have read (n : Nat) : Nat.ofDigitChars 10 (Nat.toDigits 10 n) 0 = n :=
      Nat.ofDigitChars_toDigits (by decide) (by decide)
    rw [← read other, output, read]

theorem replaced_iff_of_literal {numbers : Numbers} {build : Build} {code front rest : List Char}
    {q : Quoted} {number : Nat} (whole : code = front ++ (q.text ++ rest)) (literal : Literal q)
    (line : OneLine q.quote q.body) :
    Replaced numbers build code front q number ↔
      ¬Covered code front ∧ numbers.number? q.value = some number := by
  have output (before after : List Segment) (slot : Slot)
      (cut : segments code = before ++ .slot slot :: after) :
      (inlineNumbers numbers build code).code = (inlineSegments numbers build before).code ++
        ((inlineSlot numbers build slot).code ++ (inlineSegments numbers build after).code) := by
    rw [inlineNumbers_eq, scanned, cut, code_inlineSegments_append]
    rfl
  constructor
  · rintro ⟨before, slot, after, cut, rfl, rfl, replaced⟩
    refine ⟨not_covered_of_cut cut, @number?_of_code_inlineSlot _ build _ _ literal.plain ?_⟩
    rw [output before after slot cut, List.append_cancel_left_eq,
      List.append_cancel_right_eq] at replaced
    exact replaced
  · rintro ⟨free, known⟩
    rcases exists_cut_or_reaches ((flatMap_segments code).trans whole) with
      ⟨before, after, cut, place, -⟩ | reaches
    · have behind : segments (q.text ++ rest) = after :=
        segments_behind cut (place.symm ▸ whole)
      obtain ⟨slot, rest', found, same⟩ : ∃ slot rest', slot? (q.text ++ rest) = some (slot, rest') ∧
          slot.placeholder = q := by
        have taken := slot?_placeholder (placeholder?_literal literal line rest)
        split at taken
        · exact ⟨_, _, taken, rfl⟩
        · exact ⟨_, _, taken, rfl⟩
      rw [← behind, segments_slot found] at cut
      refine ⟨before, slot, _, cut, place, same, ?_⟩
      rw [output before _ slot cut, code_inlineSlot (same ▸ known), same]
    · exact absurd reaches free

/-! ## Placeholders of a script -/

theorem isQuote_of_plain {quote : Char} (plain : quote = '"' ∨ quote = '\x27') :
    isQuote quote = true := by
  rcases plain with rfl | rfl <;> rfl

/-- A placeholder that is a token of a script, and whose value has a number, is replaced exactly if
the scan takes no message in its place, if the place is not inside a text that is taken, and if an old
octal escape in it does not hide its value. -/
theorem replaced_iff {code : List Char} (layout : Layout code) {numbers : Numbers} {build : Build}
    {ps more : List Piece} {piece : Piece} {q : Quoted} {value : String} {number : Nat}
    (cut : layout.pieces = ps ++ piece :: more) (item : piece.item = ⟨.token, q.text⟩)
    (literal : Literal q) (single : ¬Continued q.body) (known : piece.item.value? = some value)
    (indexed : numbers.number? value = some number) :
    Replaced numbers build code (layout.line ++ spell piece.gap ps) q number ↔
      ¬Messaged code (layout.line ++ spell piece.gap ps) ∧
      ¬Within code (layout.line ++ spell piece.gap ps) ∧
      (Digited q.body → numbers.number? (String.ofList q.body) = some number) := by
  obtain ⟨rest, whole, reads⟩ := layout.exists_read cut
  rw [item] at known
  obtain ⟨goal, text⟩ := Item.mk.inj item
  rw [text] at whole reads
  rw [goal] at reads
  obtain ⟨line, own⟩ := value_of_token literal.plain reads known single
  have begins : code = (layout.line ++ spell piece.gap ps) ++
      q.quote :: (q.body ++ q.quote :: rest) :=
    whole.trans (by simp [Quoted.text])
  rw [replaced_iff_of_literal whole literal line, covered_iff begins (isQuote_of_plain literal.plain),
    not_or, and_assoc, own]
  refine and_congr_right fun _ => and_congr_right fun _ => ?_
  split_ifs with old
  · simp [old]
  · simp [old, indexed]

/-! ## Two placeholders in a call -/

def twoLiterals (between : String) : String :=
  "f(\"%%NLS:m#a%%\"," ++ between ++ "\"%%NLS:m#b%%\");"

def twoNumbers : Numbers := [("%%NLS:m#a%%", 0), ("%%NLS:m#b%%", 1)]

def firstLiteral : Quoted := ⟨'"', "%%NLS:m#a%%".toList⟩

def secondLiteral : Quoted := ⟨'"', "%%NLS:m#b%%".toList⟩

def firstPieces (between : List Piece) : List Piece :=
  [.token "" "f", .token "" "(", .token "" "\"%%NLS:m#a%%\"", .token "" ","] ++ between

def lastPieces : List Piece := [.token "" ")", .token "" ";"]

theorem literal_second : Literal secondLiteral :=
  ⟨.inl rfl, .blank, "m#b".toList, whole_of_not_mem (by decide), by decide +kernel⟩

theorem replaced_iff_apart :
    ∃ layout : Layout (twoLiterals "'x',").toList,
      layout.pieces = firstPieces [.token "" "'x'", .token "" ","] ++
        ⟨[], .token, secondLiteral.text⟩ :: lastPieces ∧
      Literal secondLiteral ∧ ¬Continued secondLiteral.body ∧
      (Item.mk .token secondLiteral.text).value? = some "%%NLS:m#b%%" ∧
      twoNumbers.number? "%%NLS:m#b%%" = some 1 ∧
      Replaced twoNumbers .preserving (twoLiterals "'x',").toList
        "f(\"%%NLS:m#a%%\",'x',".toList secondLiteral 1 := by
  let layout : Layout (twoLiterals "'x',").toList :=
    ⟨[], firstPieces [.token "" "'x'", .token "" ","] ++
      ⟨[], .token, secondLiteral.text⟩ :: lastPieces, [], by decide +kernel, by decide +kernel,
      by decide +kernel⟩
  have single : ¬Continued secondLiteral.body := by decide +kernel
  have known : (Item.mk .token secondLiteral.text).value? = some "%%NLS:m#b%%" := by decide +kernel
  have indexed : twoNumbers.number? "%%NLS:m#b%%" = some 1 := by decide +kernel
  have front : layout.line ++ spell [] (firstPieces [.token "" "'x'", .token "" ","]) =
      "f(\"%%NLS:m#a%%\",'x',".toList := by decide +kernel
  let before : List Segment := [.char 'f', .char '(',
    .slot ⟨firstLiteral, some ⟨[','], ⟨'\x27', ['x']⟩⟩⟩, .char ',']
  have cut : segments (twoLiterals "'x',").toList =
      before ++ [.slot ⟨secondLiteral, none⟩, .char ')', .char ';'] := by decide +kernel
  have free : ¬Covered (twoLiterals "'x',").toList "f(\"%%NLS:m#a%%\",'x',".toList := by
    have place : before.flatMap Segment.text = "f(\"%%NLS:m#a%%\",'x',".toList := by decide +kernel
    exact place ▸ not_covered_of_cut cut
  have whole : (twoLiterals "'x',").toList = "f(\"%%NLS:m#a%%\",'x',".toList ++
      '"' :: "%%NLS:m#b%%\");".toList := by decide +kernel
  obtain ⟨messaged, within⟩ := not_or.1 (mt (covered_iff whole rfl).2 free)
  have replaced := (@replaced_iff _ layout _ .preserving _ _ _ _ _ _ rfl rfl literal_second single
    known indexed).2 ⟨front ▸ messaged, front ▸ within, fun old => absurd old (by decide +kernel)⟩
  exact ⟨layout, rfl, literal_second, single, known, indexed, front ▸ replaced⟩

/-- Behind a comma a placeholder is taken for the message of the one in front of it, and stays. -/
theorem second_literal_stays :
    ∃ layout : Layout (twoLiterals "").toList,
      layout.pieces = firstPieces [] ++ ⟨[], .token, secondLiteral.text⟩ :: lastPieces ∧
      Literal secondLiteral ∧ ¬Continued secondLiteral.body ∧
      (Item.mk .token secondLiteral.text).value? = some "%%NLS:m#b%%" ∧
      twoNumbers.number? "%%NLS:m#b%%" = some 1 ∧
      inlineNumbers twoNumbers .preserving (twoLiterals "").toList =
        ⟨"f(0,\"%%NLS:m#b%%\");".toList, 1, 0, []⟩ ∧
      inlineNumbers twoNumbers .production (twoLiterals "").toList =
        ⟨"f(0,null);".toList, 1, 1, []⟩ :=
  ⟨⟨[], firstPieces [] ++ ⟨[], .token, secondLiteral.text⟩ :: lastPieces, [], by decide +kernel,
    by decide +kernel, by decide +kernel⟩, rfl, literal_second, by decide +kernel,
    by decide +kernel, by decide +kernel, by decide +kernel, by decide +kernel⟩

end BundlePrep.Message
