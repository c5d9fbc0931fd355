import BundlePrep.Proofs.Message.Acceptance
import BundlePrep.Proofs.Script.Constant
import Mathlib.Data.List.Basic

/-!
# Values in the language

A text that is read as a value may be an expression of the language, too. The language ends comments at
more line ends, makes line feeds of those in a template, and continues a text behind more of them. Apart
from these, its value is the one that is read, and where it takes a line end in another way between two
quotes, its value is another one.
-/

set_option autoImplicit false

namespace BundlePrep.Message.Grammar

open BundlePrep.Text
open BundlePrep.Script (Chained Cooked Evaluates Silent behindGap? escaped? isBlank isLineEnd skipGap
  skipGap_block skipGap_char skipGap_line skipGap_rest unitsOf unitsOfCode unitsOfCode_pair
  unitsOf_append unitsOf_ofNat)

/-- The accepted grammar, as far as the language finds nothing in its comments. -/
def silent : Rules := { accepted with comment := Silent }

/-- As far as the language reads texts alike, too: no carriage return stands in a template, and behind a
backslash no line end that the language alone takes for one. -/
def shared : Rules :=
  { silent with
    raw := fun quote c => ¬(quote = '\x60' ∧ c = '\r')
    escaped := fun c => c ≠ '\u2028' ∧ c ≠ '\u2029' }

/-! ## White space and comments -/

theorem isGap_of_isWhiteSpace {c : Char} (h : isWhiteSpace c = true) :
    isLineEnd c = true ∨ isBlank c = true ∨ c = '\x85' := by
  have all : ∀ n ∈ whiteCodes, isLineEnd (Char.ofNat n) = true ∨ isBlank (Char.ofNat n) = true ∨
      Char.ofNat n = '\x85' := by decide
  simpa using all c.toNat (mem_whiteCodes h)

theorem isWhiteSpace_of_isGap {c : Char} (h : isLineEnd c = true ∨ isBlank c = true) :
    isWhiteSpace c = true ∨ c = '\ufeff' := by
  simp only [isLineEnd, isBlank, Bool.or_eq_true, beq_iff_eq] at h
  rcases h with (((rfl | rfl) | rfl) | rfl) | h
  all_goals try exact .inl (by decide)
  rcases h with (((((((((rfl | rfl) | rfl) | rfl) | rfl) | rfl) | rfl) | h) | rfl) | rfl) | rfl
  all_goals try exact .inl (by decide)
  · exact .inr rfl
  · exact .inl (by simp [isWhiteSpace, h])

theorem not_isGap {c : Char} (h : isWordPart c = true) : isLineEnd c = false ∧ isBlank c = false := by
  rw [← Bool.or_eq_false_iff]
  by_contra gap
  rw [Bool.not_eq_false, Bool.or_eq_true] at gap
  exact absurd (h.symm.trans (not_isWordPart (isWhiteSpace_of_isGap gap))) (by decide)

theorem behindGap?_gap {gap : List Char} (h : Gap silent gap) (newline : Bool) (rest : List Char) :
    (∃ newline', behindGap? newline (gap ++ rest) = behindGap? newline' rest) ∨
      ∃ more, behindGap? newline (gap ++ rest) = some ('\x85' :: more) := by
  induction h generalizing newline with
  | nil => exact .inl ⟨newline, rfl⟩
  | @blank c cs white _ ih =>
    have plain : c ≠ '/' ∧ c ≠ '<' ∧ c ≠ '-' := by
      refine ⟨?_, ?_, ?_⟩ <;> rintro rfl <;> cases white
    rw [List.cons_append, behindGap?, skipGap_char plain]
    rcases isGap_of_isWhiteSpace white with lineEnd | blank | rfl
    · rw [if_pos lineEnd, skipGap_rest true false false _ _ _ 0]
      exact ih true
    · by_cases lineEnd : isLineEnd c = true
      · rw [if_pos lineEnd, skipGap_rest true false false _ _ _ 0]
        exact ih true
      · rw [if_neg lineEnd, if_pos blank, skipGap_rest newline false false _ _ _ 0]
        exact ih newline
    · exact .inr ⟨_, rfl⟩
  | @line text cs _ allowed _ ih =>
    rw [List.cons_append, List.cons_append, List.append_assoc, List.cons_append, behindGap?, skipGap,
      Silent.skip allowed]
    exact ih true
  | @block text cs inside _ ih =>
    obtain ⟨newline', pos, same⟩ := skipGap_block inside newline false (cs ++ rest) 2
    rw [List.cons_append, List.cons_append, List.append_assoc, List.cons_append, List.cons_append,
      behindGap?, skipGap, same, skipGap_rest newline' false false _ _ _ 0]
    exact ih newline'

theorem behindGap?_ending {cs : List Char} (h : Ending silent cs) (newline : Bool) :
    behindGap? newline cs = some [] ∨ ∃ more, behindGap? newline cs = some ('\x85' :: more) := by
  cases h with
  | gap gap =>
    rw [← List.append_nil cs]
    exact (behindGap?_gap gap newline []).imp_left fun ⟨_, same⟩ => same
  | @comment cs text gap _ allowed =>
    refine (behindGap?_gap gap newline ('/' :: '/' :: text)).imp_left fun ⟨newline', same⟩ => ?_
    rw [same, behindGap?, skipGap, skipGap_line newline' false,
      skipGap_rest false false false _ _ _ 0]
    exact allowed

theorem ends_ending {cs : List Char} (h : Ending silent cs) (more : List Char) :
    behindGap? false cs ≠ some ('+' :: more) := by
  intro plus
  rcases behindGap?_ending h false with none | ⟨_, white⟩
  · cases none.symm.trans plus
  · cases white.symm.trans plus

/-! ## Tokens -/

theorem behindGap?_token {t : Token} (h : t.Sound silent) (newline : Bool) (rest : List Char) :
    behindGap? newline (t.text ++ rest) = some (t.text ++ rest) := by
  have starts {c : Char} (solid : isLineEnd c = false ∧ isBlank c = false)
      (plain : c ≠ '/' ∧ c ≠ '<' ∧ c ≠ '-') (cs : List Char) :
      behindGap? newline (c :: cs) = some (c :: cs) := by
    rw [behindGap?, skipGap_char plain, solid.1, solid.2]
    rfl
  cases t with
  | literal quote body value =>
    rcases isQuote_cases h.1 with rfl | rfl | rfl <;> exact starts (by decide) (by decide) _
  | word text =>
    obtain ⟨c, cs, rfl, start, -⟩ := h
    refine starts (not_isGap (isWordPart_of_start start)) ?_ _
    refine ⟨?_, ?_, ?_⟩ <;> rintro rfl <;> exact absurd start (by decide)
  | mark c =>
    have all : ∀ c ∈ marks, (isLineEnd c = false ∧ isBlank c = false) ∧
        c ≠ '/' ∧ c ≠ '<' ∧ c ≠ '-' := by decide
    exact starts (all c h).1 (all c h).2 _

theorem behindGap?_piece {p : Piece} (h : p.Sound silent) (newline : Bool) (rest : List Char) :
    behindGap? newline (p.gap ++ (p.token.text ++ rest)) = some (p.token.text ++ rest) ∨
      ∃ more, behindGap? newline (p.gap ++ (p.token.text ++ rest)) = some ('\x85' :: more) :=
  (behindGap?_gap h.gap newline _).imp_left fun ⟨newline', same⟩ =>
    same.trans (behindGap?_token h.token newline' rest)

theorem token_of_behindGap? {p : Piece} (h : p.Sound silent) {newline : Bool} {rest behind : List Char}
    (found : behindGap? newline (p.gap ++ (p.token.text ++ rest)) = some behind)
    (other : behind.head? ≠ some '\x85') : p.token.text ++ rest = behind := by
  rcases behindGap?_piece h newline rest with token | ⟨more, white⟩
  · exact Option.some.inj (token.symm.trans found)
  · obtain rfl := Option.some.inj (white.symm.trans found)
    exact absurd rfl other

theorem head?_ne_of_mem {c d : Char} {set : List Char} (mem : c ∈ set) (other : d ∉ set)
    (cs : List Char) : (c :: cs).head? ≠ some d := by
  intro same
  obtain rfl := Option.some.inj same
  exact other mem

/-! ## Escapes -/

def weight (units : List Nat) : Nat := units.countP (· ∈ [0x0d, 0x2028, 0x2029])

def Lax (r : Rules) : Prop := r.raw '\x60' '\r' ∨ r.escaped '\u2028' ∨ r.escaped '\u2029'

def Compares (r : Rules) (alike : Prop) (value : List Char) (units : List Nat) : Prop :=
  (alike ∧ units = unitsOf value) ∨ (Lax r ∧ weight units < weight (unitsOf value))

section

variable {r : Rules} {p q : Prop} {value value' : List Char} {units units' : List Nat}

theorem Compares.weight_le (h : Compares r p value units) : weight units ≤ weight (unitsOf value) := by
  rcases h with ⟨-, rfl⟩ | ⟨-, less⟩
  · exact Nat.le_refl _
  · exact Nat.le_of_lt less

theorem Compares.imp (h : Compares r p value units) (weaken : p → q) : Compares r q value units :=
  h.imp_left fun ⟨alike, same⟩ => ⟨weaken alike, same⟩

theorem weight_append (units units' : List Nat) :
    weight (units ++ units') = weight units + weight units' :=
  List.countP_append

theorem Compares.append (h : Compares r p value units) (h' : Compares r q value' units') :
    Compares r (p ∧ q) (value ++ value') (units ++ units') := by
  have first := h.weight_le
  have second := h'.weight_le
  rcases h with ⟨alike, rfl⟩ | ⟨lax, less⟩
  · rcases h' with ⟨alike', rfl⟩ | ⟨lax, less⟩
    · exact .inl ⟨⟨alike, alike'⟩, (unitsOf_append ..).symm⟩
    · refine .inr ⟨lax, ?_⟩
      rw [unitsOf_append, weight_append, weight_append]
      omega
  · refine .inr ⟨lax, ?_⟩
    rw [unitsOf_append, weight_append, weight_append]
    omega

end

theorem escaped?_code {digits tail rest : List Char} {n : Nat} {units : List Nat}
    (h : Code accepted digits n) (read : escaped? ('u' :: (digits ++ tail)) = some (units, rest)) :
    units = unitsOfCode n ∧ rest = tail := by
  have written := readCode_code h tail
  have braced (cs : List Char) (opens : digits ++ tail = '{' :: cs) :
      units = unitsOfCode n ∧ rest = tail := by
    rw [opens, escaped?] at read
    obtain ⟨⟨code, behind⟩, number, same⟩ := Option.map_eq_some_iff.1 read
    obtain ⟨rfl, rfl⟩ := Prod.mk.inj same
    obtain ⟨low, digits', rfl, nonempty, value, plain⟩ := bracedNumber?_eq_some number (by decide)
    rw [opens, readCode, readBraced_append value (nonempty rfl) plain low] at written
    obtain ⟨rfl, rfl⟩ := Prod.mk.inj (Option.some.inj written)
    exact ⟨rfl, rfl⟩
  cases h with
  | four size number =>
    obtain ⟨p, q, r, s, rfl⟩ := List.length_eq_four.1 size
    have small : n < 0x10000 := by simpa using hexNumber?_lt number
    have digit := isSome_of_hexNumber? number p (List.mem_cons_self ..)
    rw [List.cons_append, List.cons_append, List.cons_append, List.cons_append, List.nil_append,
      escaped?, number] at read
    · obtain ⟨rfl, rfl⟩ := Prod.mk.inj (Option.some.inj read)
      exact ⟨by rw [unitsOfCode, if_pos small], rfl⟩
    · rintro rfl
      cases digit
  | braced => exact braced _ rfl
  | signed => exact braced _ rfl

theorem behind_escape {quote : Char} {cs rest : List Char} {units : List Nat}
    (h : Cooked quote ('\\' :: cs) units rest) (quoted : isQuote quote = true) :
    ∃ out behind more, escaped? cs = some (out, behind) ∧ Cooked quote behind more rest ∧
      units = out ++ more := by
  cases h with
  | close => cases quoted
  | escape read cooked => exact ⟨_, _, _, read, cooked, rfl⟩
  | raw _ backslash => exact absurd rfl backslash

theorem escaped?_char {c : Char} {cs : List Char} (plain : c ∉ ['n', 'r', 't', 'b', 'f', 'v', 'x', 'u'])
    (alone : c = '\r' → cs.head? ≠ some '\n') : escaped? (c :: cs) =
      if isLineEnd c then some ([], cs)
      else if c = '0' ∧ (∀ d ∈ cs.head?, d.isDigit = false) then some ([0], cs)
      else if c.isDigit then none
      else some (unitsOfCode c.toNat, cs) := by
  simp only [List.mem_cons, List.not_mem_nil, or_false, not_or] at plain
  obtain ⟨n, r, t, b, f, v, x, u⟩ := plain
  rw [escaped?, if_neg (not_or.2 ⟨x, u⟩)]
  all_goals try assumption
  · rintro ds rfl rfl
    exact alone rfl rfl
  · rintro _ _ _ rfl
    exact absurd rfl x
  · rintro _ rfl
    exact absurd rfl u
  · rintro _ _ _ _ _ rfl
    exact absurd rfl u

theorem cooked_escape {r : Rules} {quote : Char} {e out behind rest : List Char} {units : List Nat}
    (quoted : isQuote quote = true)
    (escape : Escape r behind e out) (cooked : Cooked quote ('\\' :: (e ++ behind)) units rest) :
    ∃ own more, units = own ++ more ∧ Cooked quote behind more rest ∧
      Compares r (Escape shared behind e out) out own := by
  obtain ⟨own, further, more, read, others, rfl⟩ := behind_escape cooked quoted
  have code {digits : List Char} {n : Nat} (code : Code r digits n) :
      Code accepted digits n ∧ Code shared digits n :=
    ⟨code.within fun _ _ => trivial, code.within fun _ _ => trivial⟩
  -- An escape that the language reads as far as the code does.
  have single (own' : List Nat) (found : escaped? (e ++ behind) = some (own', behind))
      (compares : Compares r (Escape shared behind e out) out own') :
      ∃ units next, own ++ more = units ++ next ∧ Cooked quote behind next rest ∧
        Compares r (Escape shared behind e out) out units := by
    rw [read] at found
    obtain ⟨rfl, rfl⟩ := Prod.mk.inj (Option.some.inj found)
    exact ⟨own, more, rfl, others, compares⟩
  cases escape with
  | @letter c d mem =>
    refine single (unitsOf [d]) ?_ (.inl ⟨.letter mem, rfl⟩)
    simp only [letters, List.mem_cons, Prod.mk.injEq, List.not_mem_nil, or_false] at mem
    rcases mem with ⟨rfl, rfl⟩ | ⟨rfl, rfl⟩ | ⟨rfl, rfl⟩ | ⟨rfl, rfl⟩ | ⟨rfl, rfl⟩ | ⟨rfl, rfl⟩ <;> rfl
  | zero alone =>
    have digit : escaped? ('0' :: behind) = _ :=
      escaped?_char (by decide) fun same => absurd same (by decide)
    rw [if_neg (by decide), if_pos ⟨rfl, alone⟩] at digit
    exact single _ digit (.inl ⟨.zero alone, rfl⟩)
  | lineFeed => exact single _ rfl (.inl ⟨.lineFeed, rfl⟩)
  | carriageReturn alone =>
    exact single _ (escaped?_char (by decide) fun _ => alone) (.inl ⟨.carriageReturn alone, rfl⟩)
  | carriageReturnLineFeed => exact single _ rfl (.inl ⟨.carriageReturnLineFeed, rfl⟩)
  | @byte digits n size number =>
    obtain ⟨p, q, rfl⟩ := List.length_eq_two.1 size
    have small : n < 256 := by simpa using hexNumber?_lt number
    refine single [n] ?_ (.inl ⟨.byte size number, ?_⟩)
    · rw [List.cons_append, List.cons_append, List.cons_append, List.nil_append, escaped?,
        number]
      rfl
    · rw [unitsOf_ofNat (.inl (by omega)), unitsOfCode, if_pos (by omega)]
  | code own valid =>
    obtain ⟨rfl, rfl⟩ := escaped?_code (code own).1 read
    exact ⟨_, _, rfl, others, .inl ⟨.code (code own).2 valid, (unitsOf_ofNat valid).symm⟩⟩
  | @pair first second high low one other inHigh inLow =>
    rw [List.cons_append, List.append_assoc] at read
    obtain ⟨rfl, rfl⟩ := escaped?_code (code one).1 read
    obtain ⟨own', further', more', read', others', rfl⟩ := behind_escape others quoted
    obtain ⟨rfl, rfl⟩ := escaped?_code (code other).1 read'
    refine ⟨[high, low], more', ?_, others', .inl ⟨.pair (code one).2 (code other).2 inHigh inLow, ?_⟩⟩
    · simp [unitsOfCode, show high < 0x10000 by omega, show low < 0x10000 by omega]
    · rw [unitsOf_ofNat (.inr (by omega)), unitsOfCode_pair inHigh inLow]
  | @other c plain digit taken =>
    have letter : c ∉ ['n', 'r', 't', 'b', 'f', 'v', 'x', 'u'] := by
      simp only [List.mem_cons, not_or] at plain ⊢
      tauto
    have line : c ≠ '\n' ∧ c ≠ '\r' := by
      refine ⟨?_, ?_⟩ <;> rintro rfl <;> exact plain (by decide)
    have zero : c ≠ '0' := by
      rintro rfl
      cases digit
    have found : escaped? (c :: behind) = _ := escaped?_char letter fun same => absurd same line.2
    rw [if_neg (fun same : _ ∧ _ => zero same.1), digit] at found
    by_cases ends : isLineEnd c = true
    · rw [if_pos ends] at found
      refine single _ found (.inr ?_)
      simp only [isLineEnd, Bool.or_eq_true, beq_iff_eq, line, false_or] at ends
      rcases ends with rfl | rfl
      · exact ⟨.inr (.inl taken), by decide⟩
      · exact ⟨.inr (.inr taken), by decide⟩
    · rw [if_neg ends] at found
      refine single _ found (.inl ⟨.other plain digit ?_, ?_⟩)
      · refine ⟨?_, ?_⟩ <;> rintro rfl <;> exact ends rfl
      · simp [unitsOf]

/-! ## Texts -/

/-- Between two quotes the language stops where the code does, with the same value unless it takes
something else for a line end. -/
theorem body_cooked {r : Rules} {quote : Char} {body value rest rest' : List Char} {units : List Nat}
    (quoted : isQuote quote = true)
    (whole : Body r quote body value) (cooked : Cooked quote (body ++ quote :: rest) units rest') :
    rest' = rest ∧ Compares r (Body shared quote body value) value units := by
  induction whole generalizing units with
  | nil =>
    cases cooked with
    | close => exact ⟨rfl, .inl ⟨.nil, rfl⟩⟩
    | escape | carriageReturn | carriageReturnLineFeed => cases quoted
    | raw differs => exact absurd rfl differs
  | @raw c cs value differs backslash line interpolation taken whole ih =>
    -- The language takes a carriage return for a line feed, alone or together with one.
    have lost {units units' : List Nat} (back : quote = '\x60') (same : c = '\r')
        (reads : Cooked quote (cs ++ quote :: rest) units' rest')
        (level : weight units = weight units') : rest' = rest ∧
          Compares r (Body shared quote (c :: cs) (c :: value)) (c :: value) units := by
      obtain ⟨stops, compares⟩ := ih reads
      subst back same
      refine ⟨stops, .inr ⟨.inl taken, ?_⟩⟩
      calc weight units ≤ weight (unitsOf value) := level ▸ compares.weight_le
        _ < weight (unitsOf ['\r']) + weight (unitsOf value) := Nat.lt_add_of_pos_left (by decide)
        _ = weight (unitsOf ('\r' :: value)) := by rw [← weight_append, ← unitsOf_append]; rfl
    rw [List.cons_append] at cooked
    generalize text : cs ++ quote :: rest = behind at cooked
    cases cooked with
    | close => exact absurd rfl differs
    | escape => exact absurd rfl backslash
    | carriageReturn back alone reads => exact lost back rfl (text ▸ reads) (by simp [weight])
    | @carriageReturnLineFeed ds _ units back reads =>
      have more : Cooked quote ('\n' :: ds) (10 :: units) rest' :=
        .raw (by rintro rfl; cases quoted) (by decide) (by decide) (fun _ => back) (by simp) reads
      exact lost back rfl (text ▸ more) rfl
    | raw _ _ solid _ _ reads =>
      obtain ⟨stops, compares⟩ := ih (text ▸ reads)
      refine ⟨stops, ?_⟩
      have first : Compares r True [c] (unitsOfCode c.toNat) := .inl ⟨trivial, by simp [unitsOf]⟩
      exact (first.append compares).imp fun alike =>
        .raw differs backslash line interpolation (fun same => solid same.2) alike.2
  | escape escape _ ih =>
    rw [List.cons_append, List.append_assoc] at cooked
    obtain ⟨own, more, rfl, reads, compares⟩ :=
      cooked_escape quoted (escape.extend quoted rest) cooked
    obtain ⟨stops, others⟩ := ih reads
    exact ⟨stops, (compares.append others).imp fun alike => .escape alike.1.shorten alike.2⟩

/-! ## Chains -/

theorem shared_within_silent (text : List Char) : shared.Within silent text :=
  ⟨fun _ => id, fun _ _ _ => id, fun _ _ _ _ => trivial, fun _ _ _ => trivial⟩

section

variable {r : Rules} (allowed : ∀ text, r.Within silent text)
include allowed

theorem Gap.shared {gap : List Char} (h : Gap r gap) : Gap shared gap :=
  h.within fun inner => (allowed gap).comment inner

theorem mark_shared {gap : List Char} {c : Char} (h : Piece.Sound r ⟨gap, .mark c⟩) :
    Piece.Sound shared ⟨gap, .mark c⟩ :=
  ⟨h.gap.shared allowed, h.token⟩

theorem literal_cooked {gap body value after inner rest : List Char} {quote quote' : Char}
    {units : List Nat} (sound : Piece.Sound r ⟨gap, .literal quote body value⟩)
    (found : behindGap? false (gap ++ ((Token.literal quote body value).text ++ after)) =
      some (quote' :: inner)) (quoted : quote' ∈ ['\x27', '"', '\x60'])
    (cooked : Cooked quote' inner units rest) : rest = after ∧
      Compares r (Piece.Sound shared ⟨gap, .literal quote body value⟩) value units := by
  have text := token_of_behindGap? (sound.within (allowed _)) found
    (head?_ne_of_mem quoted (by decide) inner)
  rw [Token.text, List.cons_append, List.append_assoc, List.singleton_append] at text
  obtain ⟨rfl, rfl⟩ := List.cons.inj text
  obtain ⟨stops, compares⟩ := body_cooked sound.token.1 sound.token.2 cooked
  exact ⟨stops, compares.imp fun body => ⟨sound.gap.shared allowed, sound.token.1, body⟩⟩

/-- A chain that ends in front of something else than a plus has the same value in the language, unless
that takes something else in it for a line end. -/
theorem chained_chain {ps : List Piece} {value after rest behind : List Char} {units : List Nat}
    (sound : ∀ p ∈ ps, p.Sound r) (chain : Chain (tokens ps) value)
    (ends : ∀ more, behindGap? false after ≠ some ('+' :: more))
    (chained : Chained (spell ps ++ after) units rest) (stops : behindGap? false rest = some behind)
    (other : behind.head? ≠ some '+' ∧ behind.head? ≠ some '\x85') :
    rest = after ∧ Compares r (∀ p ∈ ps, p.Sound shared) value units := by
  generalize same : tokens ps = ts at chain
  induction chain generalizing ps units with
  | one =>
    obtain ⟨gap, qs, rfl, none⟩ := tokens_eq_cons same
    obtain rfl := tokens_eq_nil none
    rw [spell_cons, List.append_assoc, List.append_assoc] at chained
    have own := sound _ (List.mem_cons_self ..)
    cases chained with
    | one found quoted cooked =>
      obtain ⟨rfl, compares⟩ := literal_cooked allowed own found quoted cooked
      exact ⟨rfl, compares.imp List.forall_mem_singleton.2⟩
    | more found quoted cooked plus =>
      obtain ⟨rfl, -⟩ := literal_cooked allowed own found quoted cooked
      exact absurd plus (ends _)
  | more chain ih =>
    obtain ⟨gap, qs, rfl, further⟩ := tokens_eq_cons same
    obtain ⟨gap', qs, rfl, more⟩ := tokens_eq_cons further
    rw [spell_cons, List.append_assoc, List.append_assoc] at chained
    obtain ⟨own, others⟩ := List.forall_mem_cons.1 sound
    obtain ⟨mark, others⟩ := List.forall_mem_cons.1 others
    have next {further : List Char} (found : behindGap? false
        (spell (⟨gap', .mark '+'⟩ :: qs) ++ after) = some further)
        (solid : further.head? ≠ some '\x85') : '+' :: (spell qs ++ after) = further := by
      rw [spell_cons, List.append_assoc, List.append_assoc] at found
      exact token_of_behindGap? (mark.within (allowed _)) found solid
    cases chained with
    | one found quoted cooked =>
      obtain ⟨rfl, -⟩ := literal_cooked allowed own found quoted cooked
      obtain rfl := next stops other.2
      exact absurd rfl other.1
    | more found quoted cooked plus chained =>
      obtain ⟨rfl, first⟩ := literal_cooked allowed own found quoted cooked
      obtain ⟨-, rfl⟩ := List.cons.inj (next plus (by simp))
      obtain ⟨rfl, compares⟩ := ih others chained more
      refine ⟨rfl, (first.append compares).imp fun ⟨first, others⟩ => ?_⟩
      exact List.forall_mem_cons.2 ⟨first, List.forall_mem_cons.2 ⟨mark_shared allowed mark, others⟩⟩

end

theorem Compares.shared_eq {p : Prop} {value : List Char} {units : List Nat}
    (h : Compares shared p value units) : units = unitsOf value := by
  rcases h with ⟨-, same⟩ | ⟨raw | escaped | escaped, -⟩
  · exact same
  · exact absurd ⟨rfl, rfl⟩ raw
  · exact absurd rfl escaped.1
  · exact absurd rfl escaped.2

theorem pieces_shared {ps : List Piece} {last : List Char} {ts : List Token}
    (ending : Ending silent last) (sound : ∀ p ∈ ps, p.Sound shared) (same : tokens ps = ts) :
    Writes shared (spell ps ++ last) ts :=
  ⟨ps, last, rfl, sound, ending.within (r := silent) fun _ _ _ own => own, same⟩

/-- Where the comments are silent, the value that is read is that of the language exactly if the text is
one of those that both read alike. -/
theorem evaluated_iff {text value : List Char} {units : List Nat} (read : IsValue silent text value)
    (evaluates : Evaluates text units) : units = unitsOf value ↔ IsValue shared text value := by
  have compares {r : Rules} (allowed : ∀ text, r.Within silent text) (read : IsValue r text value) :
      Compares r (IsValue shared text value) value units := by
    obtain ⟨_, ⟨ps, last, rfl, sound, ending, rfl⟩, chain⟩ := read
    obtain ⟨rest, chained, stops⟩ := evaluates
    have gap := ending.within fun inner => (allowed last).comment inner
    obtain ⟨-, compares⟩ :=
      chained_chain allowed sound chain (ends_ending gap) chained stops (by simp)
    exact compares.imp fun sound => ⟨_, pieces_shared gap sound rfl, chain⟩
  constructor
  · rintro rfl
    rcases compares (Rules.Within.refl silent) read with ⟨alike, -⟩ | ⟨-, less⟩
    · exact alike
    · exact absurd less (Nat.lt_irrefl _)
  · exact fun alike => (compares shared_within_silent alike).shared_eq

end BundlePrep.Message.Grammar
