import BundlePrep.Message.Inline
import BundlePrep.Proofs.Script.Quoting
import BundlePrep.Proofs.Text.Portion

/-!
# The items of code with numbers

Of the items of a script some give way to a number or to the word for nothing. The others stay, unless
one goes on with what is put directly behind it, or goes on what is put directly in front of it.
-/

set_option autoImplicit false

namespace BundlePrep.Message

open BundlePrep.Script BundlePrep.Text

/-- What is put for a quoted text. -/
inductive Put where
  | number (n : Nat)
  | null
  deriving DecidableEq, Repr

namespace Put

def text : Put → List Char
  | .number n => Nat.toDigits 10 n
  | .null => "null".toList

def token : Put → Token
  | .number _ => .number
  | .null => .word "null" false

def Ends : Put → List Char → Prop
  | .number _, rest => endsNumeral rest = true ∧ rest.head? ≠ some '.'
  | .null, rest => Breaks rest

instance (put : Put) (rest : List Char) : Decidable (put.Ends rest) :=
  match put with
  | .number _ => inferInstanceAs (Decidable (endsNumeral rest = true ∧ rest.head? ≠ some '.'))
  | .null => inferInstanceAs (Decidable (∀ c ∈ rest.head?, isNamePart c = false ∧ c ≠ '\\'))

end Put

def Quoted.first (q : Quoted) : List Char := if q.quote = '\x60' then ['\x60'] else q.text

def Quoted.more (q : Quoted) : List Piece :=
  if q.quote = '\x60' then [⟨[], .template, q.body ++ ['\x60']⟩] else []

/-- A part of a script: a piece, or a quoted text for which something is put. -/
inductive Tile where
  | piece (p : Piece)
  | change (gap : List Char) (q : Quoted) (put : Put)
  deriving DecidableEq, Repr

namespace Tile

def olds : Tile → List Piece
  | .piece p => [p]
  | .change gap q _ => ⟨gap, .token, q.first⟩ :: q.more

def new : Tile → Piece
  | .piece p => p
  | .change gap _ put => ⟨gap, .token, put.text⟩

def portions : Tile → List Portion
  | .piece p => [.kept p.gap, .kept p.text]
  | .change gap q put => [.kept gap, .changed q.text put.text]

def Sound : Tile → Prop
  | .piece _ => True
  | .change _ q _ => isQuote q.quote = true

instance : DecidablePred Sound
  | .piece _ => isTrue trivial
  | .change _ q _ => inferInstanceAs (Decidable (isQuote q.quote = true))

def Ends : Tile → List Char → Prop
  | .piece _, _ => True
  | .change _ _ put, rest => put.Ends rest

instance (tile : Tile) (rest : List Char) : Decidable (tile.Ends rest) :=
  match tile with
  | .piece _ => isTrue trivial
  | .change _ _ put => inferInstanceAs (Decidable (put.Ends rest))

end Tile

def bare? : List Tile → Option Put
  | .change [] _ put :: _ => some put
  | _ => none

def clings (item : Item) : Put → Bool
  | .number _ => item.goal.sticky item.text || item.goal.pointing item.text
  | .null => item.goal.sticky item.text

/-- No item goes on with what is put directly behind it, or on what is put directly in front of it. -/
def Separate (last : List Char) : List Tile → Prop
  | [] => True
  | tile :: tiles =>
    (∀ put ∈ bare? tiles, clings tile.new.item put = false) ∧
      tile.Ends (spell last (tiles.flatMap Tile.olds)) ∧ Separate last tiles

instance Separate.decidable (last : List Char) : DecidablePred (Separate last)
  | [] => isTrue trivial
  | tile :: tiles =>
    have := Separate.decidable last tiles
    inferInstanceAs (Decidable ((∀ put ∈ bare? tiles, clings tile.new.item put = false) ∧
      tile.Ends (spell last (tiles.flatMap Tile.olds)) ∧ Separate last tiles))

/-! ## What is put -/

theorem head_put {p : Char → Prop} (all : ∀ c ∈ "0123456789n".toList, p c) (put : Put)
    (rest : List Char) : ∃ c, (put.text ++ rest).head? = some c ∧ p c := by
  cases put with
  | null => exact ⟨'n', rfl, all 'n' (by decide)⟩
  | number n =>
    obtain ⟨d, ds, digits, digit⟩ := toDigits_eq_cons n
    refine ⟨d, by rw [Put.text, digits]; rfl, of_isDigit (fun c mem => all c ?_) digit⟩
    exact List.mem_append_left ['n'] mem

theorem not_halts_put (put : Put) (rest : List Char) : ¬Halts (put.text ++ rest) := by
  obtain ⟨c, head, own⟩ := head_put (p := fun c => (isNameStart c || c.isDigit) = true)
    (by decide) put rest
  intro halts
  obtain ⟨start, digit⟩ := halts c head
  rw [start, digit] at own
  cases own

theorem not_noDigit_number (n : Nat) (rest : List Char) :
    ¬NoDigit ((Put.number n).text ++ rest) := by
  obtain ⟨d, ds, digits, digit⟩ := toDigits_eq_cons n
  intro noDigit
  have own := noDigit d (by rw [Put.text, digits]; rfl)
  rw [digit] at own
  cases own

theorem noDigit_null (rest : List Char) : NoDigit (Put.null.text ++ rest) := by
  intro d mem
  obtain rfl : 'n' = d := by simpa using (show d ∈ some 'n' from mem)
  decide

theorem sticky_put (put : Put) : Lexical.token.sticky put.text = true := by
  obtain ⟨c, head, opening, own⟩ := head_put
    (p := fun c => isOpening c = false ∧ (c.isDigit || isNameStart c) = true) (by decide) put []
  rw [List.append_nil] at head
  obtain ⟨cs, text⟩ := List.head?_eq_some_iff.1 head
  rw [text, sticky_plain opening, own]

theorem rest?_put (put : Put) (rest : List Char) :
    Lexical.token.rest? (put.text ++ rest) = some rest ↔ put.Ends rest := by
  cases put with
  | null =>
    have parts : ∀ d ∈ "ull".toList, isNamePart d = true ∧ d ≠ '\\' := by decide
    exact rest?_name (c := 'n') (by decide) parts
  | number n => exact rest?_digits n rest

theorem token?_put (put : Put) : (Item.mk .token put.text).token? = some put.token := by
  cases put with
  | null => decide +kernel
  | number n =>
    have read := (rest?_digits n []).2 ⟨rfl, by simp⟩
    obtain ⟨d, ds, digits, digit⟩ := toDigits_eq_cons n
    rw [List.append_nil, digits, Lexical.rest?, lexeme?_digit digit] at read
    obtain ⟨lexeme, found, -⟩ := Option.map_eq_some_iff.1 read
    rw [Item.token?, Put.text, digits]
    dsimp only
    rw [lexeme?_digit digit, found]
    simp only [numberLexeme, Option.bind_eq_bind, Option.bind_eq_some_iff] at found
    obtain ⟨numeral, -, same⟩ := found
    split at same
    · obtain rfl := Option.some.inj same
      rfl
    · cases same

theorem Put.Ends.halts {put : Put} {rest : List Char} (h : put.Ends rest) : Halts rest := by
  cases put with
  | null => exact Breaks.halts h
  | number n => exact halts_of_endsNumeral h.1

theorem Put.ends_head (put : Put) {rest rest' : List Char} (same : rest'.head? = rest.head?) :
    put.Ends rest' ↔ put.Ends rest := by
  cases put with
  | null => simp only [Put.Ends, Breaks, same]
  | number n => rw [Put.Ends, Put.Ends, endsNumeral_head same, same]


/-! ## Old and new parts -/

theorem spell_quoted (gap : List Char) (q : Quoted) (last : List Char) (ps : List Piece) :
    spell last (⟨gap, .token, q.first⟩ :: (q.more ++ ps)) = gap ++ (q.text ++ spell last ps) := by
  rw [spell, spell_append, Quoted.first, Quoted.more]
  split
  next back => simp [spell, Quoted.text, back]
  next => rfl

theorem head_first {q : Quoted} (rest : List Char) :
    (q.first ++ rest).head? = some q.quote := by
  rw [Quoted.first]
  split
  next back => rw [back]; rfl
  next => rfl

theorem old_tiles (last : List Char) (tiles : List Tile) :
    (tiles.flatMap Tile.portions).flatMap Portion.old ++ last =
      spell last (tiles.flatMap Tile.olds) := by
  induction tiles with
  | nil => rfl
  | cons tile tiles ih =>
    rw [List.flatMap_cons, List.flatMap_append, List.append_assoc, ih, List.flatMap_cons]
    cases tile with
    | piece p => simp [Tile.portions, Portion.old, Tile.olds, spell]
    | change gap q put =>
      rw [Tile.olds, List.cons_append, spell_quoted]
      simp [Tile.portions, Portion.old]

theorem new_tiles (last : List Char) (tiles : List Tile) :
    (tiles.flatMap Tile.portions).flatMap Portion.new ++ last = spell last (tiles.map Tile.new) := by
  induction tiles with
  | nil => rfl
  | cons tile tiles ih =>
    rw [List.flatMap_cons, List.flatMap_append, List.append_assoc, ih, List.map_cons]
    cases tile <;> simp [Tile.portions, Portion.new, Tile.new, spell]

theorem patches_pieces (line : List Char) (ps : List Piece) (rest : List Portion) :
    Portion.patches line ((ps.map Tile.piece).flatMap Tile.portions ++ rest) =
      Portion.patches (line ++ spell [] ps) rest := by
  induction ps generalizing line with
  | nil => simp [spell]
  | cons p ps ih =>
    simp only [List.map_cons, List.flatMap_cons, Tile.portions, List.cons_append, List.nil_append,
      Portion.patches, ih]
    simp [spell]

theorem olds_pieces (ps : List Piece) : (ps.map Tile.piece).flatMap Tile.olds = ps := by
  induction ps with
  | nil => rfl
  | cons p ps ih => simpa [Tile.olds] using ih

/-! ## What stands behind an item -/

theorem noDigit_of_point {goal : Lexical} {text rest : List Char}
    (h : goal.rest? (text ++ rest) = some rest) (point : text = ['.']) : NoDigit rest := by
  subst point
  cases goal with
  | token => exact noDigit_of_pointing h rfl
  | template =>
    obtain ⟨stretch, found, rfl⟩ := Option.map_eq_some_iff.1 h
    obtain ⟨w, last, whole, closing, -⟩ := scanTemplate_eq_some found
    have alone := congrArg List.getLast? (List.append_cancel_right
      (whole.trans (List.append_cons w last stretch.rest)))
    rcases closing with rfl | rfl <;> simp at alone
  | markupText =>
    intro d mem
    rcases head_of_markupText h with brace | tag
    · obtain rfl : '{' = d := by simpa [brace] using mem
      decide
    · obtain rfl : '<' = d := by simpa [tag] using mem
      decide
  | regex | operator | tagWord | attributeText => cases h

theorem not_isGoing_quoted {q : Quoted} (h : isQuote q.quote = true) (rest : List Char) :
    ∀ c ∈ (q.text ++ rest).head?, isGoing c = false ∧ c.isDigit = false := by
  intro c mem
  obtain rfl : q.quote = c := by simpa [Quoted.text] using mem
  rcases isQuote_cases h with quote | quote | quote <;> rw [quote] <;> decide

theorem not_isGoing_put (put : Put) (rest : List Char) :
    ∀ c ∈ (put.text ++ rest).head?, isGoing c = false := by
  obtain ⟨d, head, own⟩ := head_put (p := fun c => isGoing c = false) (by decide) put rest
  intro c mem
  obtain rfl : d = c := by simpa [head] using mem
  exact own

theorem near_new {last : List Char} {newline : Bool} {tiles : List Tile}
    (sound : ∀ tile ∈ tiles, tile.Sound) (reads : Reads last newline (tiles.flatMap Tile.olds)) :
    Near (spell last (tiles.flatMap Tile.olds)) (spell last (tiles.map Tile.new)) := by
  induction tiles generalizing newline with
  | nil => exact .refl last
  | cons tile tiles ih =>
    have soundTiles : ∀ tile ∈ tiles, tile.Sound := fun t mem => sound t (List.mem_cons_of_mem _ mem)
    cases tile with
    | piece p =>
      obtain ⟨skips, item, more⟩ := reads
      rw [List.flatMap_cons, List.map_cons, Tile.olds, Tile.new, List.singleton_append, spell, spell,
        ← List.append_assoc, ← List.append_assoc]
      refine (ih soundTiles more).append fun point => ?_
      have gap : p.gap = [] := by
        split at skips
        next gapped =>
          rcases List.append_eq_singleton_iff.1 point with ⟨gap, -⟩ | ⟨-, text⟩
          · exact gap
          · exact absurd text (Item.text_ne_nil item (Lexical.ne_markupText gapped))
        next => exact skips
      rw [gap, List.nil_append] at point
      exact noDigit_of_point item point
    | change gap q put =>
      have own : isQuote q.quote = true := sound _ (List.mem_cons_self ..)
      rw [List.flatMap_cons, Tile.olds, List.cons_append, spell_quoted]
      have heads := not_isGoing_quoted own (spell last (tiles.flatMap Tile.olds))
      refine Near.append (near_of_heads (fun c mem => (heads c mem).1) (not_isGoing_put put _)) ?_
      exact fun _ c mem => (heads c mem).2

/-- Texts begin alike in front of old and new parts, unless something is put there with no gap in
front of it. -/
theorem head_new {last : List Char} {newline : Bool} {tiles : List Tile}
    (sound : ∀ tile ∈ tiles, tile.Sound) (reads : Reads last newline (tiles.flatMap Tile.olds)) :
    (∃ put rest, bare? tiles = some put ∧ spell last (tiles.map Tile.new) = put.text ++ rest) ∨
      bare? tiles = none ∧
        (spell last (tiles.map Tile.new)).head? = (spell last (tiles.flatMap Tile.olds)).head? := by
  cases tiles with
  | nil => exact .inr ⟨rfl, rfl⟩
  | cons tile tiles =>
    cases tile with
    | piece p =>
      refine .inr ⟨rfl, ?_⟩
      have near := near_new (fun t mem => sound t (List.mem_cons_of_mem _ mem)) reads.2.2
      obtain ⟨-, item, -⟩ := reads
      rw [List.flatMap_cons, List.map_cons, Tile.olds, Tile.new, List.singleton_append, spell, spell,
        ← List.append_assoc, ← List.append_assoc]
      by_cases empty : p.gap ++ p.text = []
      · -- Only text in markup is empty, and a brace or a tag stands behind it.
        have markup : p.goal = .markupText := by
          by_contra other
          exact Item.text_ne_nil item other (List.append_eq_nil_iff.1 empty).2
        rw [markup] at item
        rw [empty, List.nil_append, List.nil_append]
        rcases head_of_markupText item with brace | tag
        · exact ((near.head (by decide)).1 brace).trans brace.symm
        · exact ((near.head (by decide)).1 tag).trans tag.symm
      · rw [List.head?_append_of_ne_nil _ empty, List.head?_append_of_ne_nil _ empty]
    | change gap q put =>
      cases gap with
      | nil => exact .inl ⟨put, spell last (tiles.map Tile.new), rfl, rfl⟩
      | cons c gap => exact .inr ⟨rfl, rfl⟩

/-! ## One item -/

theorem clings_of_sticky {item : Item} (sticky : item.goal.sticky item.text = true) (put : Put) :
    clings item put = true := by
  cases put <;> simp [clings, sticky]

theorem sticky_or_pointing {item : Item} {put : Put} (h : clings item put = true) :
    item.goal.sticky item.text = true ∨
      ∃ n, put = .number n ∧ item.goal.pointing item.text = true := by
  cases put with
  | number n => exact (Bool.or_eq_true_iff.1 h).imp id fun pointing => ⟨n, rfl, pointing⟩
  | null => exact .inl h

theorem reads_behind {last : List Char} {newline : Bool} {tile : Tile} {tiles : List Tile}
    (reads : Reads last newline ((tile :: tiles).flatMap Tile.olds)) :
    Reads last false (tiles.flatMap Tile.olds) := by
  cases tile with
  | piece p => exact reads.2.2
  | change gap q put => exact Reads.behind reads

theorem rest?_piece {last : List Char} {newline : Bool} {p : Piece} {tiles : List Tile}
    (sound : ∀ tile ∈ tiles, tile.Sound) (reads : Reads last newline (tiles.flatMap Tile.olds))
    (item : p.goal.rest? (p.text ++ spell last (tiles.flatMap Tile.olds)) =
      some (spell last (tiles.flatMap Tile.olds))) :
    p.goal.rest? (p.text ++ spell last (tiles.map Tile.new)) =
        some (spell last (tiles.map Tile.new)) ↔
      ∀ put ∈ bare? tiles, clings p.item put = false := by
  have near := near_new sound reads
  rcases head_new sound reads with ⟨put, rest, bare, text⟩ | ⟨none, same⟩
  · rw [bare, text]
    rw [text] at near
    have only : (∀ put' ∈ some put, clings p.item put' = false) ↔ clings p.item put = false := by simp
    rw [only]
    constructor
    · intro read
      by_contra clinging
      rcases sticky_or_pointing (Bool.not_eq_false _ ▸ clinging) with sticky | ⟨n, rfl, pointing⟩
      · exact not_halts_put put rest (halts_of_sticky read sticky)
      · exact not_noDigit_number n rest (noDigit_of_pointing read pointing)
    · intro loose
      have notSticky (sticky : p.goal.sticky p.text = true) : clings p.item put = true :=
        @clings_of_sticky p.item sticky put
      refine rest?_near item near (fun sticky => ?_) fun pointing => ?_
      · rw [notSticky sticky] at loose
        cases loose
      · cases put with
        | number n =>
          have clinging : clings p.item (.number n) = true :=
            Bool.or_eq_true_iff.2 (.inr pointing)
          rw [clinging] at loose
          cases loose
        | null => exact noDigit_null rest
  · rw [none]
    refine iff_of_true ?_ (by simp)
    refine rest?_near item near (fun _ => .inl same) fun pointing d mem => ?_
    exact noDigit_of_pointing item pointing d (same ▸ mem)

/-- An item in front of new parts is read exactly if it does not go on with what is put there, and if
what is put for it ends there. -/
theorem rest?_new {last : List Char} {newline : Bool} {tile : Tile} {tiles : List Tile}
    (sound : ∀ t ∈ tiles, t.Sound)
    (reads : Reads last newline ((tile :: tiles).flatMap Tile.olds)) :
    tile.new.goal.rest? (tile.new.text ++ spell last (tiles.map Tile.new)) =
        some (spell last (tiles.map Tile.new)) ↔
      (∀ put ∈ bare? tiles, clings tile.new.item put = false) ∧
        tile.Ends (spell last (tiles.flatMap Tile.olds)) := by
  cases tile with
  | piece p => exact (rest?_piece sound reads.2.2 reads.2.1).trans (and_iff_left trivial).symm
  | change gap q put =>
    refine (rest?_put put _).trans ?_
    rcases head_new sound (reads_behind reads) with ⟨put', rest, bare, text⟩ | ⟨none, same⟩
    · refine iff_of_false (fun ends => ?_) fun both => ?_
      · exact not_halts_put put' rest (text ▸ ends.halts)
      · have loose := both.1 put' bare
        rw [clings_of_sticky (sticky_put put)] at loose
        cases loose
    · rw [none, put.ends_head same]
      simp [Tile.Ends]

/-! ## All items -/

theorem behindGap?_new {last : List Char} {newline : Bool} {tile : Tile} {tiles : List Tile}
    (sound : ∀ t ∈ tile :: tiles, t.Sound)
    (reads : Reads last newline ((tile :: tiles).flatMap Tile.olds)) :
    if tile.new.goal.gapped then
      behindGap? newline (tile.new.gap ++ (tile.new.text ++ spell last (tiles.map Tile.new))) =
        some (tile.new.text ++ spell last (tiles.map Tile.new))
    else tile.new.gap = [] := by
  have near := near_new (fun t mem => sound t (List.mem_cons_of_mem _ mem)) (reads_behind reads)
  cases tile with
  | piece p =>
    obtain ⟨skips, item, -⟩ := reads
    rw [Tile.new]
    split at skips
    next gapped =>
      rw [if_pos gapped]
      have text := Item.text_ne_nil item (Lexical.ne_markupText gapped)
      have nonempty : p.text ++ spell last (tiles.flatMap Tile.olds) ≠ [] := by simp [text]
      have begins := behindGap?_begins skips nonempty
      have opens := (near.append (noDigit_of_point item)).opens
      refine behindGap?_opens skips nonempty opens fun c mem => ?_
      rw [List.head?_append_of_ne_nil _ text] at mem
      exact begins c (by rwa [List.head?_append_of_ne_nil _ text])
    next gapped => rwa [if_neg gapped]
  | change gap q put =>
    obtain ⟨skips, -⟩ := reads
    obtain ⟨c, head, comment, begins⟩ := head_put
      (p := fun c => (c ≠ '/' ∧ c ≠ '<' ∧ c ≠ '-') ∧ isLineEnd c = false ∧ isBlank c = false)
      (by decide) put (spell last (tiles.map Tile.new))
    have nonempty (rest : List Char) : q.first ++ rest ≠ [] := fun none => by
      simpa [none] using head_first (q := q) rest
    exact behindGap?_opens skips (nonempty _) (opens_of_head head comment) (begins_of_head head begins)

/-- The items of a script stay, with one item for each text that gives way, exactly where no item goes
on with what is put directly behind it, or on what is put directly in front of it. -/
theorem hasItems_new {last : List Char} {newline : Bool} {tiles : List Tile}
    (sound : ∀ tile ∈ tiles, tile.Sound) (reads : Reads last newline (tiles.flatMap Tile.olds)) :
    HasItems newline (spell last (tiles.map Tile.new)) (tiles.map fun tile => tile.new.item) ↔
      Separate last tiles := by
  induction tiles generalizing newline with
  | nil => exact iff_of_true ⟨[], last, rfl, reads, rfl⟩ trivial
  | cons tile tiles ih =>
    have soundTiles : ∀ t ∈ tiles, t.Sound := fun t mem => sound t (List.mem_cons_of_mem _ mem)
    refine (hasItems_cons_iff _ _ (behindGap?_new sound reads) _).trans ?_
    rw [rest?_new soundTiles reads, ih soundTiles (reads_behind reads), and_assoc]
    rfl

end BundlePrep.Message
