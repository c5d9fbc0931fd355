import BundlePrep.Proofs.Script.Gaps

/-!
# The values of constant expressions

What the language makes of texts and templates without substitutions, of a plus between them, and of
objects and lists with such members. A text is a row of code units. The old octal escapes have no
place in a module.
-/

set_option autoImplicit false

namespace BundlePrep.Script

open BundlePrep.Text

/-- The code units of a code point. -/
def unitsOfCode (code : Nat) : List Nat :=
  if code < 0x10000 then [code]
  else [0xd800 + (code - 0x10000) / 0x400, 0xdc00 + (code - 0x10000) % 0x400]

def unitsOf (text : List Char) : List Nat := text.flatMap fun c => unitsOfCode c.toNat

/-! ## Texts -/

def escaped? : List Char → Option (List Nat × List Char)
  | [] => none
  | 'n' :: cs => some ([10], cs)
  | 't' :: cs => some ([9], cs)
  | 'r' :: cs => some ([13], cs)
  | 'b' :: cs => some ([8], cs)
  | 'f' :: cs => some ([12], cs)
  | 'v' :: cs => some ([11], cs)
  | '\r' :: '\n' :: cs => some ([], cs)
  | 'x' :: p :: q :: cs => (hexNumber? [p, q]).map fun code => ([code], cs)
  | 'u' :: '{' :: cs => (bracedNumber? cs 0 false).map fun (code, rest) => (unitsOfCode code, rest)
  | 'u' :: p :: q :: r :: s :: cs => (hexNumber? [p, q, r, s]).map fun code => ([code], cs)
  | c :: cs =>
    if isLineEnd c then some ([], cs)
    else if c = 'x' ∨ c = 'u' then none
    else if c = '0' ∧ (∀ d ∈ cs.head?, d.isDigit = false) then some ([0], cs)
    else if c.isDigit then none
    else some (unitsOfCode c.toNat, cs)

inductive Cooked (quote : Char) : List Char → List Nat → List Char → Prop
  | close {rest : List Char} : Cooked quote (quote :: rest) [] rest
  | escape {cs behind rest : List Char} {out units : List Nat} :
      escaped? cs = some (out, behind) → Cooked quote behind units rest →
      Cooked quote ('\\' :: cs) (out ++ units) rest
  | carriageReturn {cs rest : List Char} {units : List Nat} : quote = '\x60' →
      cs.head? ≠ some '\n' → Cooked quote cs units rest → Cooked quote ('\r' :: cs) (10 :: units) rest
  | carriageReturnLineFeed {cs rest : List Char} {units : List Nat} : quote = '\x60' →
      Cooked quote cs units rest → Cooked quote ('\r' :: '\n' :: cs) (10 :: units) rest
  | raw {c : Char} {cs rest : List Char} {units : List Nat} : c ≠ quote → c ≠ '\\' → c ≠ '\r' →
      (c = '\n' → quote = '\x60') → (quote = '\x60' → c = '$' → cs.head? ≠ some '{') →
      Cooked quote cs units rest → Cooked quote (c :: cs) (unitsOfCode c.toNat ++ units) rest

/-- A text, or several with a plus between them, behind a gap. -/
inductive Chained : List Char → List Nat → List Char → Prop
  | one {quote : Char} {cs inner rest : List Char} {units : List Nat} :
      behindGap? false cs = some (quote :: inner) → quote ∈ ['\x27', '"', '\x60'] →
      Cooked quote inner units rest → Chained cs units rest
  | more {quote : Char} {cs inner behind next rest : List Char} {units more : List Nat} :
      behindGap? false cs = some (quote :: inner) → quote ∈ ['\x27', '"', '\x60'] →
      Cooked quote inner units behind → behindGap? false behind = some ('+' :: next) →
      Chained next more rest → Chained cs (units ++ more) rest

/-- An expression with a text for its value. -/
def Evaluates (text : List Char) (units : List Nat) : Prop :=
  ∃ rest, Chained text units rest ∧ behindGap? false rest = some []

/-! ## Lists and objects -/

inductive Listed {α : Type} (close : Char) (item : List Char → α → List Char → Prop) :
    List Char → List α → List Char → Prop
  | none {cs rest : List Char} : behindGap? false cs = some (close :: rest) →
      Listed close item cs [] rest
  | last {cs behind rest : List Char} {a : α} : item cs a behind →
      behindGap? false behind = some (close :: rest) → Listed close item cs [a] rest
  | more {cs behind next rest : List Char} {a : α} {as : List α} : item cs a behind →
      behindGap? false behind = some (',' :: next) → Listed close item next as rest →
      Listed close item cs (a :: as) rest

/-- The value of a member: a text or a list of texts. -/
inductive Content where
  | text (units : List Nat)
  | list (values : List (List Nat))
  deriving DecidableEq, Repr

inductive Named : List Char → List Nat → List Char → Prop
  | word {c : Char} {cs inner : List Char} : behindGap? false cs = some (c :: inner) →
      isNameStart c = true →
      Named cs (unitsOf (c :: inner.takeWhile isNamePart)) (inner.dropWhile isNamePart)
  | text {quote : Char} {cs inner rest : List Char} {units : List Nat} :
      behindGap? false cs = some (quote :: inner) → quote ∈ ['\x27', '"'] →
      Cooked quote inner units rest → Named cs units rest

inductive Valued : List Char → Content → List Char → Prop
  | text {cs rest : List Char} {units : List Nat} : Chained cs units rest →
      Valued cs (.text units) rest
  | list {cs inner rest : List Char} {values : List (List Nat)} :
      behindGap? false cs = some ('[' :: inner) → Listed ']' Chained inner values rest →
      Valued cs (.list values) rest

inductive Membered : List Char → List Nat × Content → List Char → Prop
  | member {cs behind next rest : List Char} {name : List Nat} {content : Content} :
      Named cs name behind → behindGap? false behind = some (':' :: next) →
      Valued next content rest → Membered cs (name, content) rest

/-- An expression with an object for its value, with the members that are written in it. -/
def Creates (text : List Char) (members : List (List Nat × Content)) : Prop :=
  ∃ inner rest, behindGap? false text = some ('{' :: inner) ∧
    Listed '}' Membered inner members rest ∧ behindGap? false rest = some []

/-- What an object has by a name: of several members with one name it has the last. -/
def lastNamed? (name : List Char) (members : List (List Nat × Content)) : Option Content :=
  (members.filter (·.1 == unitsOf name)).getLast?.map (·.2)

/-! ## White space and comments -/

theorem skipGap_char {c : Char} (plain : c ≠ '/' ∧ c ≠ '<' ∧ c ≠ '-') (newline legacy : Bool)
    (cs : List Char) (pos : Nat) : skipGap newline legacy .code (c :: cs) pos =
      if isLineEnd c then skipGap true legacy .code cs (pos + c.utf8Size)
      else if isBlank c then skipGap newline legacy .code cs (pos + c.utf8Size)
      else some ⟨c :: cs, pos, newline, legacy⟩ := by
  obtain ⟨slash, less, minus⟩ := plain
  rw [skipGap]
  · rintro _ rfl
    contradiction
  · rintro _ rfl
    contradiction
  · rintro _ rfl
    contradiction
  · rintro _ rfl
    contradiction

theorem skipGap_line (newline newline' legacy : Bool) (cs : List Char) (pos : Nat) :
    (skipGap newline legacy .lineComment cs pos).map (·.rest) =
      (skipGap newline' legacy .lineComment cs pos).map (·.rest) := by
  induction cs generalizing pos with
  | nil => rfl
  | cons c cs ih =>
    rw [skipGap, skipGap]
    split
    · rfl
    · exact ih _

theorem skipGap_block {text : List Char} (inside : ¬['*', '/'] <:+: text) (newline legacy : Bool)
    (rest : List Char) (pos : Nat) : ∃ newline' pos',
      skipGap newline legacy .blockComment (text ++ '*' :: '/' :: rest) pos =
        skipGap newline' legacy .code rest pos' := by
  induction text generalizing newline pos with
  | nil => exact ⟨newline, pos + 2, rfl⟩
  | cons c text ih =>
    rw [List.infix_cons_iff, not_or] at inside
    rw [List.cons_append, skipGap]
    · exact ih inside.2 _ _
    · rintro ds rfl begins
      cases text with
      | nil => cases begins
      | cons d text =>
        obtain rfl : d = '/' := (List.cons.inj begins).1
        exact inside.1 ⟨text, rfl⟩

/-- A comment up to a line feed or the end, in which the language finds nothing: behind another line end
in it there are no more than white space and comments. -/
def Silent (text : List Char) : Prop :=
  (skipGap false false .lineComment text 0).map (·.rest) = some []

theorem Silent.skip {text : List Char} (h : Silent text) (newline : Bool) (rest : List Char)
    (pos : Nat) : (skipGap newline false .lineComment (text ++ '\n' :: rest) pos).map (·.rest) =
      behindGap? true rest := by
  obtain ⟨found, skipped, same⟩ := Option.map_eq_some_iff.1 h
  rw [← List.append_nil text] at skipped
  obtain ⟨newline', legacy, inside, pos', other⟩ :=
    skipGap_through pauses_nil skipped (by rw [same]; exact Nat.le_refl 0)
  have code : inside.behind = .code := by
    cases inside with
    | blockComment =>
      rw [other [] pauses_nil, skipGap] at skipped
      cases skipped
    | _ => rfl
  have ends : isNewline '\n' = true := rfl
  rw [skipGap_line newline false, skipGap_rest false false false _ _ pos 0,
    other _ (pauses_cons ends _), skipGap_newline ends, code]
  exact skipGap_rest ..

/-! ## Code units -/

theorem unitsOf_cons (c : Char) (text : List Char) :
    unitsOf (c :: text) = unitsOfCode c.toNat ++ unitsOf text := by
  simp [unitsOf]

theorem unitsOf_append (a b : List Char) : unitsOf (a ++ b) = unitsOf a ++ unitsOf b := by
  simp [unitsOf]

theorem unitsOf_ofNat {code : Nat} (h : code.isValidChar) :
    unitsOf [Char.ofNat code] = unitsOfCode code := by
  rw [unitsOf_cons, Char.ofNat, dif_pos h]
  exact List.append_nil _

theorem unitsOfCode_pair {high low : Nat} (hh : 0xd800 ≤ high ∧ high < 0xdc00)
    (hl : 0xdc00 ≤ low ∧ low < 0xe000) :
    unitsOfCode (0x10000 + (high - 0xd800) * 0x400 + (low - 0xdc00)) = [high, low] := by
  rw [unitsOfCode, if_neg (by omega)]
  simp only [List.cons.injEq, and_true]
  omega

theorem unitsOf_injective {a b : List Char} (h : unitsOf a = unitsOf b) : a = b := by
  induction a generalizing b with
  | nil =>
    cases b with
    | nil => rfl
    | cons d b =>
      rw [unitsOf_cons, unitsOfCode] at h
      split at h <;> cases h
  | cons c a ih =>
    cases b with
    | nil =>
      rw [unitsOf_cons, unitsOfCode] at h
      split at h <;> cases h
    | cons d b =>
      have own : c.toNat < 0xd800 ∨ 0xdfff < c.toNat ∧ c.toNat < 0x110000 := c.valid
      have other : d.toNat < 0xd800 ∨ 0xdfff < d.toNat ∧ d.toNat < 0x110000 := d.valid
      suffices same : c.toNat = d.toNat ∧ unitsOf a = unitsOf b by
        rw [Char.toNat_inj.1 same.1, ih same.2]
      rw [unitsOf_cons, unitsOf_cons, unitsOfCode, unitsOfCode] at h
      split at h <;> split at h <;>
        simp only [List.cons_append, List.nil_append, List.cons.injEq] at h
      · exact h
      · omega
      · omega
      · exact ⟨by omega, h.2.2⟩

end BundlePrep.Script
