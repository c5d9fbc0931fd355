import BundlePrep.Message.Argument
import Mathlib.Data.List.Infix

/-!
# The grammar of constant arguments

A key or a value is written in tokens: texts between quotes, words, and single characters. White space
and comments stand between the tokens and around them. The tokens are put together as follows:

    key    := value | object
    value  := text ('+' text)*
    object := { (property (',' property)* ','?)? }
    property := (word | text) ':' (value | list)
    list   := '[' (value (',' value)* ','?)? ']'

The documented grammar takes hexadecimal digits alone for the code of an escape. The accepted one also
takes a plus in front of them where they stand in braces. Other grammars that are compared with these
take less between quotes and in comments.
-/

set_option autoImplicit false

namespace BundlePrep.Message.Grammar

open BundlePrep.Text

/-- In what the grammars differ. -/
structure Rules where
  signed : Prop
  comment : List Char → Prop
  raw : Char → Char → Prop
  escaped : Char → Prop

def documented : Rules := ⟨False, fun _ => True, fun _ _ => True, fun _ => True⟩

def accepted : Rules := { documented with signed := True }

/-! ## Tokens -/

section

variable (r : Rules)

inductive Gap : List Char → Prop
  | nil : Gap []
  | blank {c : Char} {cs : List Char} : isWhiteSpace c = true → Gap cs → Gap (c :: cs)
  | line {text cs : List Char} : '\n' ∉ text → r.comment text → Gap cs →
      Gap ('/' :: '/' :: (text ++ '\n' :: cs))
  | block {text cs : List Char} : ¬['*', '/'] <:+: text → Gap cs →
      Gap ('/' :: '*' :: (text ++ '*' :: '/' :: cs))

inductive Ending : List Char → Prop
  | gap {cs : List Char} : Gap r cs → Ending cs
  | comment {cs text : List Char} : Gap r cs → '\n' ∉ text → r.comment text →
      Ending (cs ++ '/' :: '/' :: text)

inductive Code : List Char → Nat → Prop
  | four {digits : List Char} {n : Nat} : digits.length = 4 → hexNumber? digits = some n →
      Code digits n
  | braced {digits : List Char} {n : Nat} : digits ≠ [] → hexNumber? digits = some n →
      n ≤ 0x10ffff → Code ('{' :: (digits ++ ['}'])) n
  | signed {digits : List Char} {n : Nat} : r.signed → digits ≠ [] → hexNumber? digits = some n →
      n ≤ 0x10ffff → Code ('{' :: '+' :: (digits ++ ['}'])) n

def letters : List (Char × Char) :=
  [('n', '\n'), ('r', '\r'), ('t', '\t'), ('b', '\x08'), ('f', '\x0c'), ('v', '\x0b')]

inductive Escape (behind : List Char) : List Char → List Char → Prop
  | letter {c d : Char} : (c, d) ∈ letters → Escape behind [c] [d]
  | zero : (∀ d ∈ behind.head?, d.isDigit = false) → Escape behind ['0'] ['\x00']
  | lineFeed : Escape behind ['\n'] []
  | carriageReturn : behind.head? ≠ some '\n' → Escape behind ['\r'] []
  | carriageReturnLineFeed : Escape behind ['\r', '\n'] []
  | byte {digits : List Char} {n : Nat} : digits.length = 2 → hexNumber? digits = some n →
      Escape behind ('x' :: digits) [Char.ofNat n]
  | code {digits : List Char} {n : Nat} : Code r digits n → n.isValidChar →
      Escape behind ('u' :: digits) [Char.ofNat n]
  | pair {first second : List Char} {high low : Nat} : Code r first high → Code r second low →
      0xd800 ≤ high ∧ high < 0xdc00 → 0xdc00 ≤ low ∧ low < 0xe000 →
      Escape behind ('u' :: (first ++ '\\' :: 'u' :: second))
        [Char.ofNat (0x10000 + (high - 0xd800) * 0x400 + (low - 0xdc00))]
  | other {c : Char} : c ∉ ['n', 'r', 't', 'b', 'f', 'v', 'x', 'u', '\n', '\r'] →
      c.isDigit = false → r.escaped c → Escape behind [c] [c]

/-- What stands between two quotes, and what it stands for. -/
inductive Body (quote : Char) : List Char → List Char → Prop
  | nil : Body quote [] []
  | raw {c : Char} {cs value : List Char} : c ≠ quote → c ≠ '\\' →
      (quote ≠ '\x60' → c ≠ '\n' ∧ c ≠ '\r') →
      (quote = '\x60' → c = '$' → cs.head? ≠ some '{') → r.raw quote c → Body quote cs value →
      Body quote (c :: cs) (c :: value)
  | escape {e cs out value : List Char} : Escape r cs e out → Body quote cs value →
      Body quote ('\\' :: (e ++ cs)) (out ++ value)

end

inductive Token where
  | literal (quote : Char) (body value : List Char)
  | word (text : List Char)
  | mark (c : Char)
  deriving DecidableEq, Repr

def Token.text : Token → List Char
  | .literal quote body _ => quote :: (body ++ [quote])
  | .word text => text
  | .mark c => [c]

def marks : List Char := ['+', ',', ':', '{', '}', '[', ']']

def Token.Sound (r : Rules) : Token → Prop
  | .literal quote body value => isQuote quote = true ∧ Body r quote body value
  | .word text => ∃ c cs, text = c :: cs ∧ isWordStart c = true ∧ cs.all isWordPart = true
  | .mark c => c ∈ marks

structure Piece where
  gap : List Char
  token : Token
  deriving DecidableEq, Repr

structure Piece.Sound (r : Rules) (p : Piece) : Prop where
  gap : Gap r p.gap
  token : p.token.Sound r

def tokens (ps : List Piece) : List Token := ps.map Piece.token

def spell (ps : List Piece) : List Char := ps.flatMap fun p => p.gap ++ p.token.text

/-- A text in which tokens are written. -/
def Writes (r : Rules) (text : List Char) (ts : List Token) : Prop :=
  ∃ ps last, text = spell ps ++ last ∧ (∀ p ∈ ps, p.Sound r) ∧ Ending r last ∧ tokens ps = ts

/-! ## What tokens are put together to -/

/-- Texts with a plus between them. -/
inductive Chain : List Token → List Char → Prop
  | one {quote : Char} {body value : List Char} : Chain [.literal quote body value] value
  | more {quote : Char} {body value more : List Char} {ts : List Token} : Chain ts more →
      Chain (.literal quote body value :: .mark '+' :: ts) (value ++ more)

inductive Items {α : Type} (item : List Token → α → Prop) : List Token → List α → Prop
  | nil : Items item [] []
  | last {ts : List Token} {a : α} : item ts a → Items item ts [a]
  | more {ts rest : List Token} {a : α} {as : List α} : item ts a → Items item rest as →
      Items item (ts ++ .mark ',' :: rest) (a :: as)

def Enclosed {α : Type} (opening closing : Char) (item : List Token → α → Prop)
    (ts : List Token) (as : List α) : Prop :=
  ∃ inner, ts = .mark opening :: (inner ++ [.mark closing]) ∧ Items item inner as

inductive Name : Token → List Char → Prop
  | word {text : List Char} : Name (.word text) text
  | literal {quote : Char} {body value : List Char} : quote ≠ '\x60' →
      Name (.literal quote body value) value

inductive Assigned : List Token → PropertyValue → Prop
  | text {ts : List Token} {value : List Char} : Chain ts value → Assigned ts (.text value)
  | list {ts : List Token} {values : List (List Char)} : Enclosed '[' ']' Chain ts values →
      Assigned ts (.list values)

inductive Declares : List Token → Property → Prop
  | property {t : Token} {ts : List Token} {name : List Char} {value : PropertyValue} :
      Name t name → Assigned ts value → Declares (t :: .mark ':' :: ts) ⟨name, value⟩

/-- A key, alone or in an object: some property of the object is named `key`, and each that is has a
text for its value. -/
inductive Denotes : List Token → Key → Prop
  | plain {ts : List Token} {value : List Char} : Chain ts value →
      Denotes ts (.plain (String.ofList value))
  | described {ts : List Token} {properties : List Property} {key : Key} :
      Enclosed '{' '}' Declares ts properties →
      (∃ p ∈ properties, p.name = "key".toList) →
      (∀ p ∈ properties, p.name = "key".toList → ∃ value, p.value = .text value) →
      describedKey properties = .ok key → Denotes ts key

/-- A text that writes a value. -/
def IsValue (r : Rules) (text value : List Char) : Prop := ∃ ts, Writes r text ts ∧ Chain ts value

/-- A text that writes a key. -/
def IsKey (r : Rules) (text : List Char) (key : Key) : Prop := ∃ ts, Writes r text ts ∧ Denotes ts key

/-! ## Grammars within each other -/

/-- How a code with a sign begins. -/
def sign : List Char := ['u', '{', '+']

structure Rules.Within (r s : Rules) (text : List Char) : Prop where
  signed : sign <:+: text → r.signed → s.signed
  comment : ∀ inner, inner <:+: text → '\n' ∉ inner → r.comment inner → s.comment inner
  raw : ∀ c ∈ text, ∀ quote, r.raw quote c → s.raw quote c
  escaped : ∀ c ∈ text, r.escaped c → s.escaped c

theorem documented_within_accepted (text : List Char) : documented.Within accepted text :=
  ⟨fun _ => False.elim, fun _ _ _ => id, fun _ _ _ => id, fun _ _ => id⟩

theorem accepted_within_documented {text : List Char} (unsigned : ¬sign <:+: text) :
    accepted.Within documented text :=
  ⟨fun signed => absurd signed unsigned, fun _ _ _ => id, fun _ _ _ => id, fun _ _ => id⟩

section

variable {r s : Rules}

theorem Rules.Within.refl (r : Rules) (text : List Char) : r.Within r text :=
  ⟨fun _ => id, fun _ _ _ => id, fun _ _ _ => id, fun _ _ => id⟩

theorem Rules.Within.mono {text part : List Char} (h : r.Within s text) (inside : part <:+: text) :
    r.Within s part where
  signed signed := h.signed (signed.trans inside)
  comment inner mem := h.comment inner (mem.trans inside)
  raw c mem := h.raw c (inside.subset mem)
  escaped c mem := h.escaped c (inside.subset mem)

theorem Rules.Within.left {a b : List Char} (h : r.Within s (a ++ b)) : r.Within s a :=
  h.mono (List.prefix_append a b).isInfix

theorem Rules.Within.right {a b : List Char} (h : r.Within s (a ++ b)) : r.Within s b :=
  h.mono (List.suffix_append a b).isInfix

theorem Rules.Within.tail {c : Char} {cs : List Char} (h : r.Within s (c :: cs)) : r.Within s cs :=
  h.mono (List.suffix_cons c cs).isInfix

theorem Gap.within {cs : List Char}
    (h : ∀ inner, inner <:+: cs → '\n' ∉ inner → r.comment inner → s.comment inner)
    (gap : Gap r cs) : Gap s cs := by
  induction gap with
  | nil => exact .nil
  | blank white _ ih => exact .blank white (ih fun inner mem => h inner (List.infix_cons mem))
  | @line text cs inline allowed _ ih =>
    refine .line inline (h text ⟨['/', '/'], '\n' :: cs, by simp⟩ inline allowed)
      (ih fun inner mem => h inner (mem.trans ⟨'/' :: '/' :: (text ++ ['\n']), [], by simp⟩))
  | @block text cs inside _ ih =>
    refine .block inside (ih fun inner mem => h inner (mem.trans ?_))
    exact ⟨'/' :: '*' :: (text ++ ['*', '/']), [], by simp⟩

theorem Ending.within {cs : List Char}
    (h : ∀ inner, inner <:+: cs → '\n' ∉ inner → r.comment inner → s.comment inner)
    (ending : Ending r cs) : Ending s cs := by
  cases ending with
  | gap gap => exact .gap (gap.within h)
  | @comment cs text gap inline allowed =>
    refine .comment (gap.within fun inner mem => h inner (mem.trans ?_)) inline
      (h text ⟨cs ++ ['/', '/'], [], by simp⟩ inline allowed)
    exact (List.prefix_append cs _).isInfix

theorem Code.within {digits : List Char} {n : Nat} (h : sign <:+: 'u' :: digits → r.signed → s.signed)
    (code : Code r digits n) : Code s digits n := by
  cases code with
  | four size number => exact .four size number
  | braced nonempty number low => exact .braced nonempty number low
  | @signed digits _ sign nonempty number low =>
    exact .signed (h ⟨[], digits ++ ['}'], rfl⟩ sign) nonempty number low

theorem Escape.within {behind e out : List Char} (h : r.Within s e)
    (escape : Escape r behind e out) : Escape s behind e out := by
  cases escape with
  | letter mem => exact .letter mem
  | zero alone => exact .zero alone
  | lineFeed => exact .lineFeed
  | carriageReturn alone => exact .carriageReturn alone
  | carriageReturnLineFeed => exact .carriageReturnLineFeed
  | byte size number => exact .byte size number
  | code code valid => exact .code (code.within h.signed) valid
  | @pair first second _ _ one other high low =>
    rw [← List.cons_append] at h
    exact .pair (one.within h.left.signed) (other.within h.right.tail.signed) high low
  | other plain digit allowed =>
    exact .other plain digit (h.escaped _ (List.mem_singleton_self _) allowed)

theorem Body.within {quote : Char} {body value : List Char} (h : r.Within s body)
    (whole : Body r quote body value) : Body s quote body value := by
  induction whole with
  | nil => exact .nil
  | raw other backslash line interpolation allowed _ ih =>
    exact .raw other backslash line interpolation (h.raw _ (List.mem_cons_self ..) _ allowed)
      (ih h.tail)
  | escape escape _ ih => exact .escape (escape.within h.tail.left) (ih h.tail.right)

theorem Token.Sound.within {t : Token} (h : r.Within s t.text) (sound : t.Sound r) : t.Sound s := by
  cases t with
  | literal quote body value => exact ⟨sound.1, sound.2.within h.tail.left⟩
  | word text => exact sound
  | mark c => exact sound

theorem Piece.Sound.within {p : Piece} (h : r.Within s (p.gap ++ p.token.text)) (sound : p.Sound r) :
    p.Sound s :=
  ⟨sound.gap.within h.left.comment, sound.token.within h.right⟩

theorem Writes.within {text : List Char} {ts : List Token} (h : r.Within s text)
    (writes : Writes r text ts) : Writes s text ts := by
  obtain ⟨ps, last, rfl, sound, ending, same⟩ := writes
  refine ⟨ps, last, rfl, fun p mem => (sound p mem).within (h.left.mono ?_),
    ending.within h.right.comment, same⟩
  obtain ⟨before, behind, rfl⟩ := List.append_of_mem mem
  exact ⟨spell before, spell behind, by simp [spell]⟩

theorem IsValue.within {text value : List Char} (h : r.Within s text) (denotes : IsValue r text value) :
    IsValue s text value := by
  obtain ⟨ts, writes, chain⟩ := denotes
  exact ⟨ts, writes.within h, chain⟩

theorem IsKey.within {text : List Char} {key : Key} (h : r.Within s text) (denotes : IsKey r text key) :
    IsKey s text key := by
  obtain ⟨ts, writes, key⟩ := denotes
  exact ⟨ts, writes.within h, key⟩

end

end BundlePrep.Message.Grammar
