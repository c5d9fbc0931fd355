import BundlePrep.Message.Argument
import BundlePrep.Message.Catalog
import BundlePrep.Text.Search

/-!
# Inlining numbers

In the built code a quoted placeholder gives way to the number of its message. The message that
stands behind it, after a comma, becomes `null` in a production build if the placeholder says so.
The code is cut from left to right into single characters and places where a placeholder stands, so
nothing of it is lost.
-/

set_option autoImplicit false

namespace BundlePrep.Message

open BundlePrep.Text

/-! ## Quoted texts in code -/

/-- The body of a placeholder up to its closing quote, in front of which two signs of percent have
to stand that are not escaped; `percents` counts those just before. -/
def placeholderBody? (quote : Char) (percents : Nat) : List Char → Option (List Char × List Char)
  | [] => none
  | '\\' :: c :: cs =>
    if c = '\n' then none
    else (placeholderBody? quote 0 cs).map fun (body, rest) => ('\\' :: c :: body, rest)
  | c :: cs =>
    if c = quote then if 2 ≤ percents then some ([], cs) else none
    else if c = '\\' ∨ c = '\n' then none
    else
      (placeholderBody? quote (if c = '%' then percents + 1 else 0) cs).map fun (body, rest) =>
        (c :: body, rest)

/-- The body of a message up to its closing quote. A line feed stands in it only between back
quotes or behind a backslash. -/
def messageBody? (quote : Char) : List Char → Option (List Char × List Char)
  | [] => none
  | '\\' :: c :: cs => (messageBody? quote cs).map fun (body, rest) => ('\\' :: c :: body, rest)
  | c :: cs =>
    if c = quote then some ([], cs)
    else if c = '\\' ∨ c = '\n' ∧ quote ≠ '\x60' then none
    else (messageBody? quote cs).map fun (body, rest) => (c :: body, rest)

structure Quoted where
  quote : Char
  body : List Char
  deriving DecidableEq, Repr

def Quoted.text (q : Quoted) : List Char := q.quote :: q.body ++ [q.quote]

def dropPart? : List Char → List Char → Option (List Char)
  | [], cs => some cs
  | _ :: _, [] => none
  | d :: ds, c :: cs => if d = c then dropPart? ds cs else none

def placeholder? : List Char → Option (Quoted × List Char)
  | [] => none
  | quote :: cs =>
    if quote = '"' ∨ quote = '\x27' then
      Flavor.all.findSome? fun flavor => do
        let inner ← dropPart? flavor.opening.toList cs
        let (body, rest) ← placeholderBody? quote 0 inner
        return (⟨quote, flavor.opening.toList ++ body⟩, rest)
    else none

def message? : List Char → Option (Quoted × List Char)
  | [] => none
  | quote :: cs =>
    if isQuote quote then (messageBody? quote cs).map fun (body, rest) => (⟨quote, body⟩, rest)
    else none

def comma? (cs : List Char) : Option (List Char × List Char) :=
  match cs.dropWhile isWhiteSpace with
  | ',' :: rest =>
    some (cs.takeWhile isWhiteSpace ++ ',' :: rest.takeWhile isWhiteSpace,
      rest.dropWhile isWhiteSpace)
  | _ => none

structure Fallback where
  comma : List Char
  message : Quoted
  deriving DecidableEq, Repr

def fallback? (cs : List Char) : Option (Fallback × List Char) := do
  let (comma, rest) ← comma? cs
  let (message, rest) ← message? rest
  return (⟨comma, message⟩, rest)

structure Slot where
  placeholder : Quoted
  fallback : Option Fallback
  deriving DecidableEq, Repr

def Slot.text (slot : Slot) : List Char :=
  slot.placeholder.text ++ slot.fallback.elim [] fun f => f.comma ++ f.message.text

def slot? (cs : List Char) : Option (Slot × List Char) := do
  let (placeholder, rest) ← placeholder? cs
  match fallback? rest with
  | some (fallback, rest) => return (⟨placeholder, some fallback⟩, rest)
  | none => return (⟨placeholder, none⟩, rest)

/-! ## What a reader takes is what it gives back -/

theorem placeholderBody?_eq_some {quote : Char} {percents : Nat} {cs body rest : List Char}
    (h : placeholderBody? quote percents cs = some (body, rest)) : cs = body ++ quote :: rest := by
  fun_induction placeholderBody? quote percents cs generalizing body rest with
  | case1 => cases h
  | case2 => cases h
  | case3 percents c cs _ ih =>
    obtain ⟨⟨b, r⟩, found, same⟩ := Option.map_eq_some_iff.1 h
    obtain ⟨rfl, rfl⟩ := Prod.mk.inj same
    simp [← ih found]
  | case4 =>
    obtain ⟨rfl, rfl⟩ := Prod.mk.inj (Option.some.inj h)
    rfl
  | case5 => cases h
  | case6 => cases h
  | case7 percents c cs _ _ _ ih =>
    obtain ⟨⟨b, r⟩, found, same⟩ := Option.map_eq_some_iff.1 h
    obtain ⟨rfl, rfl⟩ := Prod.mk.inj same
    simp [← ih found]

theorem messageBody?_eq_some {quote : Char} {cs body rest : List Char}
    (h : messageBody? quote cs = some (body, rest)) : cs = body ++ quote :: rest := by
  fun_induction messageBody? quote cs generalizing body rest with
  | case1 => cases h
  | case2 c cs ih =>
    obtain ⟨⟨b, r⟩, found, same⟩ := Option.map_eq_some_iff.1 h
    obtain ⟨rfl, rfl⟩ := Prod.mk.inj same
    simp [← ih found]
  | case3 =>
    obtain ⟨rfl, rfl⟩ := Prod.mk.inj (Option.some.inj h)
    rfl
  | case4 => cases h
  | case5 c cs _ _ _ ih =>
    obtain ⟨⟨b, r⟩, found, same⟩ := Option.map_eq_some_iff.1 h
    obtain ⟨rfl, rfl⟩ := Prod.mk.inj same
    simp [← ih found]

theorem dropPart?_eq_some {part cs rest : List Char} (h : dropPart? part cs = some rest) :
    cs = part ++ rest := by
  fun_induction dropPart? part cs with
  | case1 =>
    obtain rfl := Option.some.inj h
    rfl
  | case2 => cases h
  | case3 ds c cs ih => simp [← ih h]
  | case4 => cases h

theorem placeholder?_eq_some {cs rest : List Char} {q : Quoted}
    (h : placeholder? cs = some (q, rest)) : cs = q.text ++ rest := by
  unfold placeholder? at h
  split at h
  · cases h
  · next quote cs =>
    split at h
    · obtain ⟨flavor, _, found⟩ := List.exists_of_findSome?_eq_some h
      simp only [Option.bind_eq_bind, Option.bind_eq_some_iff, Option.pure_def] at found
      obtain ⟨inner, dropped, ⟨body, rest'⟩, read, same⟩ := found
      obtain ⟨rfl, rfl⟩ := Prod.mk.inj (Option.some.inj same)
      rw [dropPart?_eq_some dropped, placeholderBody?_eq_some read]
      simp [Quoted.text]
    · cases h

theorem message?_eq_some {cs rest : List Char} {q : Quoted}
    (h : message? cs = some (q, rest)) : cs = q.text ++ rest := by
  unfold message? at h
  split at h
  · cases h
  · split at h
    · obtain ⟨⟨body, rest'⟩, read, same⟩ := Option.map_eq_some_iff.1 h
      obtain ⟨rfl, rfl⟩ := Prod.mk.inj same
      rw [messageBody?_eq_some read]
      simp [Quoted.text]
    · cases h

theorem comma?_eq_some {cs comma rest : List Char} (h : comma? cs = some (comma, rest)) :
    cs = comma ++ rest := by
  unfold comma? at h
  split at h
  · next inner eq =>
    obtain ⟨rfl, rfl⟩ := Prod.mk.inj (Option.some.inj h)
    have outer := List.takeWhile_append_dropWhile (p := isWhiteSpace) (l := cs)
    have behind := List.takeWhile_append_dropWhile (p := isWhiteSpace) (l := inner)
    rw [eq] at outer
    rw [List.append_assoc, List.cons_append, behind, outer]
  · cases h

theorem fallback?_eq_some {cs rest : List Char} {f : Fallback}
    (h : fallback? cs = some (f, rest)) : cs = f.comma ++ f.message.text ++ rest := by
  simp only [fallback?, Option.bind_eq_bind, Option.bind_eq_some_iff, Option.pure_def] at h
  obtain ⟨⟨comma, behind⟩, first, ⟨message, behind'⟩, second, same⟩ := h
  obtain ⟨rfl, rfl⟩ := Prod.mk.inj (Option.some.inj same)
  dsimp only at second ⊢
  rw [comma?_eq_some first, message?_eq_some second, List.append_assoc]

theorem slot?_eq_some {cs rest : List Char} {slot : Slot} (h : slot? cs = some (slot, rest)) :
    cs = slot.text ++ rest := by
  simp only [slot?, Option.bind_eq_bind, Option.bind_eq_some_iff, Option.pure_def] at h
  obtain ⟨⟨q, behind⟩, first, h⟩ := h
  rw [placeholder?_eq_some first]
  split at h
  · next f behind' second =>
    obtain ⟨rfl, rfl⟩ := Prod.mk.inj (Option.some.inj h)
    dsimp only at second ⊢
    rw [fallback?_eq_some second]
    simp [Slot.text]
  · obtain ⟨rfl, rfl⟩ := Prod.mk.inj (Option.some.inj h)
    simp [Slot.text]

theorem length_slot? {cs rest : List Char} {slot : Slot} (h : slot? cs = some (slot, rest)) :
    rest.length < cs.length := by
  have whole := congrArg List.length (slot?_eq_some h)
  simp only [Slot.text, Quoted.text, List.length_append, List.length_cons] at whole
  omega

/-! ## Segments -/

inductive Segment where
  | char (c : Char)
  | slot (slot : Slot)
  deriving DecidableEq, Repr

def Segment.text : Segment → List Char
  | .char c => [c]
  | .slot place => place.text

def segments (cs : List Char) : List Segment :=
  match _found : slot? cs with
  | some (slot, rest) => .slot slot :: segments rest
  | none =>
    match cs with
    | [] => []
    | c :: cs => .char c :: segments cs
termination_by cs.length
decreasing_by
  · exact length_slot? _found
  · simp

theorem flatMap_segments (cs : List Char) : (segments cs).flatMap Segment.text = cs := by
  fun_induction segments cs with
  | case1 cs slot rest found ih => simp [Segment.text, ih, ← slot?_eq_some found]
  | case2 => rfl
  | case3 _ c cs ih => simp [Segment.text, ih]

/-! ## Numbers for placeholders -/

inductive Build where
  | production
  | preserving
  deriving DecidableEq, Repr

/-- The placeholder that a quoted text stands for. A body with a bad escape stands for itself. -/
def Quoted.value (q : Quoted) : String :=
  match parseValue (String.ofList q.text) with
  | .ok text => text
  | .error _ => String.ofList q.body

/-- Whether a message is blanked behind a placeholder. One that looks like a template with
interpolations is kept. -/
def blanks (build : Build) (placeholder : String) (message : Quoted) : Bool :=
  build == .production && Flavor.ofPlaceholder? placeholder == some .blank &&
    !occursIn ['$', '{'] message.text

def numbered (build : Build) (placeholder : String) (number : Nat) (slot : Slot) : List Char :=
  Nat.toDigits 10 number ++
    match slot.fallback with
    | none => []
    | some f =>
      f.comma ++ if blanks build placeholder f.message then "null".toList else f.message.text

structure Inlined where
  code : List Char
  replaced : Nat
  blanked : Nat
  /-- The placeholders without a number, in the order of the code. -/
  missing : List String
  deriving DecidableEq, Repr

namespace Inlined

def unchanged (code : List Char) : Inlined := ⟨code, 0, 0, []⟩

def append (a b : Inlined) : Inlined :=
  ⟨a.code ++ b.code, a.replaced + b.replaced, a.blanked + b.blanked, a.missing ++ b.missing⟩

end Inlined

def inlineSlot (numbers : Numbers) (build : Build) (slot : Slot) : Inlined :=
  let placeholder := slot.placeholder.value
  match numbers.number? placeholder with
  | none => { Inlined.unchanged slot.text with missing := [placeholder] }
  | some number =>
    { code := numbered build placeholder number slot
      replaced := 1
      blanked := if slot.fallback.any (blanks build placeholder ·.message) then 1 else 0
      missing := [] }

def inlineSegment (numbers : Numbers) (build : Build) : Segment → Inlined
  | .char c => .unchanged [c]
  | .slot place => inlineSlot numbers build place

def inlineSegments (numbers : Numbers) (build : Build) (segments : List Segment) : Inlined :=
  segments.foldr (fun s inlined => (inlineSegment numbers build s).append inlined) (.unchanged [])

/-- Puts numbers for the placeholders in code. Code without a placeholder's mark is left alone. -/
def inlineNumbers (numbers : Numbers) (build : Build) (code : List Char) : Inlined :=
  if occursIn "%%NLS".toList code then inlineSegments numbers build (segments code)
  else .unchanged code

end BundlePrep.Message
