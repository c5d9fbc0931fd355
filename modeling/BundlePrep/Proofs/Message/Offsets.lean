import BundlePrep.Proofs.Message.Bytewise
import BundlePrep.Proofs.Message.Faults
import BundlePrep.Proofs.Message.Value

/-!
# Offsets stay between characters

A machine that stands where a rest of its text begins does what the reader of that rest does: it comes
to an end, no cut of it lies inside of a character, and it stands where the rest that the reader leaves
begins. Each machine is compared with its reader; the loops, by induction on what the reader takes.
-/

set_option autoImplicit false

namespace BundlePrep.Message.Bytewise

open BundlePrep.Text Fault.locate

/-! ## Places -/

section

variable {text cs rest : List Char}

theorem offset_append (front : List Char) (h : front ++ rest <:+ text) :
    offset text rest = offset text (front ++ rest) + byteLength front := by
  obtain ⟨before, rfl⟩ := h
  simp only [offset, byteLength_append]
  omega

theorem offset_cons {c : Char} (h : c :: rest <:+ text) :
    offset text rest = offset text (c :: rest) + c.utf8Size := offset_append [c] h

theorem splitAt?_offset (h : cs <:+ text) : (splitAt? (offset text cs) text).map Prod.snd = some cs := by
  obtain ⟨before, rfl⟩ := h
  have size : offset (before ++ cs) cs = byteLength before := by
    simp [offset, byteLength_append]
  rw [size, splitAt?_append]
  rfl

theorem slice?_offset (h : cs <:+ text) (bytes : Nat) :
    slice? text (offset text cs) (offset text cs + bytes) = (splitAt? bytes cs).map Prod.fst := by
  have split := splitAt?_offset h
  cases found : splitAt? (offset text cs) text with
  | none => simp [found] at split
  | some parts =>
    obtain ⟨before, rest⟩ := parts
    obtain rfl : rest = cs := by simpa [found] using split
    have later : ¬offset text rest + bytes < offset text rest := by omega
    simp only [slice?, later, if_false, found, Nat.add_sub_cancel_left, Option.bind_eq_bind,
      Option.bind_some, Option.pure_def]
    cases splitAt? bytes rest <;> rfl

theorem starts_iff {c d : Char} :
    cs.head? = some c ∧ cs[1]? = some d ↔ ∃ rest, cs = c :: d :: rest := by
  match cs with
  | [] => simp
  | [a] => simp
  | a :: b :: rest => simp

end

/-! ## Following a reader -/

section

variable {α β : Type} {text cs : List Char}

def Follows (text cs : List Char) (machine : Machine α) : Except Fault (Reading α) → Prop
  | .ok (a, rest) =>
    rest <:+ cs ∧ machine text (offset text cs) = some (.ok (a, offset text rest))
  | .error f => machine text (offset text cs) = some (.error (.fault (f.locate text)))

theorem follows_pure (a : α) : Follows text cs (pure a) (.ok (a, cs)) := ⟨List.suffix_rfl, rfl⟩

theorem follows_refuse (f : Fault) : Follows (α := α) text cs (refuse (f.locate text)) (.error f) := rfl

theorem Follows.next {m : Machine α} {next : α → Machine β} {a : α} {mid : List Char}
    {r : Except Fault (Reading β)} (first : m text (offset text cs) = some (.ok (a, offset text mid)))
    (place : mid <:+ cs) (more : Follows text mid (next a) r) : Follows text cs (m >>= next) r := by
  cases r with
  | error f => exact (bind_of_ok first).trans more
  | ok r => exact ⟨more.1.trans place, (bind_of_ok first).trans more.2⟩

theorem Follows.behind {m m' : Machine α} {cs' : List Char} {r : Except Fault (Reading α)}
    (h : Follows text cs m r) (place : cs <:+ cs')
    (same : m' text (offset text cs') = m text (offset text cs)) : Follows text cs' m' r := by
  cases r with
  | error f => exact same.trans h
  | ok r => exact ⟨h.1.trans place, same.trans h.2⟩

theorem Follows.bind {m : Machine α} {next : α → Machine β} {r : Except Fault (Reading α)}
    {k : Reading α → Except Fault (Reading β)} (first : Follows text cs m r)
    (more : ∀ a rest, r = .ok (a, rest) → rest <:+ cs → Follows text rest (next a) (k (a, rest))) :
    Follows text cs (m >>= next) (r >>= k) := by
  cases r with
  | error f => exact bind_of_error first
  | ok r => exact first.2 |> fun same => .next same first.1 (more r.1 r.2 rfl first.1)

theorem Follows.map {m : Machine α} {r : Except Fault (Reading α)} (h : Follows text cs m r)
    (f : α → β) : Follows text cs (m >>= fun a => pure (f a)) (r.map fun read => (f read.1, read.2)) := by
  cases r with
  | error e => exact bind_of_error h
  | ok r => exact .next h.2 h.1 (follows_pure _)

/-! ## Looking and moving -/

variable (place : cs <:+ text)
include place

theorem rest_at : Bytewise.rest text (offset text cs) = some (.ok (cs, offset text cs)) := by
  have split := splitAt?_offset place
  cases found : splitAt? (offset text cs) text with
  | none => simp [found] at split
  | some parts =>
    obtain ⟨before, rest⟩ := parts
    obtain rfl : rest = cs := by simpa [found] using split
    show ((uncut (splitAt? (offset text rest) text) >>= fun parts => pure parts.2 :
      Machine (List Char)) text (offset text rest)) = _
    rw [found]
    rfl

theorem peek_at : peek text (offset text cs) = some (.ok (cs.head?, offset text cs)) :=
  (bind_of_ok (rest_at place)).trans rfl

theorem peekSecond_at : peekSecond text (offset text cs) = some (.ok (cs[1]?, offset text cs)) :=
  (bind_of_ok (rest_at place)).trans rfl

theorem follows_unexpected : Follows (α := α) text cs unexpected (.error (.unexpected cs)) := by
  refine (bind_of_ok (peek_at place)).trans ?_
  cases cs <;> rfl

end

section

variable {β : Type} {text cs : List Char} {r : Except Fault (Reading β)}

theorem bump_at {c : Char} (place : c :: cs <:+ text) :
    bump text (offset text (c :: cs)) = some (.ok (some c, offset text cs)) := by
  rw [offset_cons place]
  exact (bind_of_ok (peek_at place)).trans rfl

theorem bump_end : bump text (offset text []) = some (.ok (none, offset text [])) :=
  (bind_of_ok (peek_at (List.nil_suffix ..))).trans rfl

theorem move_at {front : List Char} (place : front ++ cs <:+ text) :
    move (byteLength front) text (offset text (front ++ cs)) = some (.ok ((), offset text cs)) := by
  rw [offset_append front place]
  rfl

theorem Follows.peek {next : Option Char → Machine β} (place : cs <:+ text)
    (more : Follows text cs (next cs.head?) r) : Follows text cs (peek >>= next) r :=
  .next (peek_at place) List.suffix_rfl more

theorem Follows.peekSecond {next : Option Char → Machine β} (place : cs <:+ text)
    (more : Follows text cs (next cs[1]?) r) : Follows text cs (peekSecond >>= next) r :=
  .next (peekSecond_at place) List.suffix_rfl more

theorem Follows.bump {next : Option Char → Machine β} {c : Char} (place : c :: cs <:+ text)
    (more : Follows text cs (next (some c)) r) : Follows text (c :: cs) (bump >>= next) r :=
  .next (bump_at place) (List.suffix_cons ..) more

theorem Follows.move {next : Unit → Machine β} (front : List Char) (place : front ++ cs <:+ text)
    (more : Follows text cs (next ()) r) :
    Follows text (front ++ cs) (move (byteLength front) >>= next) r :=
  .next (move_at place) (List.suffix_append ..) more

end

/-! ## White space and comments -/

theorem Follows.skipLine {β : Type} {text cs : List Char} {r : Except Fault (Reading β)} {c : Char}
    {next : Unit → Machine β} (place : c :: cs <:+ text) (inline : c ≠ '\n')
    (more : Follows text cs (skipLine >>= next) r) : Follows text (c :: cs) (skipLine >>= next) r := by
  rw [Bytewise.skipLine_eq, bind_assoc]
  refine .bump place ?_
  dsimp only
  rw [if_neg inline]
  exact more

noncomputable def resume (text cs : List Char) : Between → Machine Unit
  | .tokens => skipTrivia
  | .lineComment => do
    skipLine
    skipTrivia
  | .blockComment start =>
    match offsetOf? ['*', '/'] cs with
    | some stop => do
      move (stop + 2)
      skipTrivia
    | none => refuse ((Fault.unexpected start).locate text)

theorem follows_skipFrom (text : List Char) (b : Between) (cs : List Char) (place : cs <:+ text) :
    Follows text cs (resume text cs b) ((skipFrom b cs).map ((), ·)) := by
  have ending (place : [] <:+ text) : Follows text [] skipTrivia (.ok ((), [])) := by
    rw [skipTrivia_eq]
    exact .peek place (.peekSecond place (follows_pure _))
  fun_induction skipFrom b cs with
  | case1 start => rfl
  | case2 b other =>
    cases b with
    | tokens => exact ending place
    | lineComment =>
      rw [resume, skipLine_eq, bind_assoc]
      exact .next bump_end List.suffix_rfl (ending place)
    | blockComment start => exact absurd rfl (other start)
  | case3 start cs ih =>
    exact .move ['*', '/'] place (ih ((List.suffix_append ['*', '/'] cs).trans place))
  | case4 start c cs other ih =>
    have closes : ¬(['*', '/'].isPrefixOf (c :: cs) = true) := by
      rw [List.isPrefixOf_iff_prefix]
      rintro ⟨behind, same⟩
      obtain ⟨rfl, rfl⟩ := List.cons.inj same
      exact other _ rfl rfl
    have later := ih ((List.suffix_cons ..).trans place)
    unfold resume at later ⊢
    dsimp only at later ⊢
    rw [offsetOf?, if_neg closes]
    cases found : offsetOf? ['*', '/'] cs with
    | none =>
      rw [found] at later
      exact later.behind (List.suffix_cons ..) rfl
    | some stop =>
      rw [found] at later
      refine later.behind (List.suffix_cons ..) ?_
      rw [offset_cons place]
      show skipTrivia text (_ + (c.utf8Size + stop + 2)) = skipTrivia text (_ + (stop + 2))
      congr 1
      omega
  | case5 c cs ih =>
    rw [resume, skipLine_eq, bind_assoc]
    refine .bump place ?_
    have later := ih ((List.suffix_cons ..).trans place)
    by_cases ends : c = '\n'
    · simp only [ends] at later ⊢
      exact later
    · simp only [ends] at later ⊢
      exact later
  | case6 cs ih =>
    have later := ih ((List.suffix_append ['/', '/'] cs).trans place)
    rw [resume, skipTrivia_eq]
    refine .peek place (.peekSecond place ?_)
    simp only [List.head?_cons]
    rw [if_neg (by decide), if_pos (by simp)]
    exact .skipLine place (by decide) (.skipLine ((List.suffix_cons ..).trans place) (by decide) later)
  | case7 cs ih =>
    have inner : '*' :: cs <:+ text := (List.suffix_cons ..).trans place
    have later := ih ((List.suffix_cons ..).trans inner)
    rw [resume, skipTrivia_eq]
    refine .peek place (.peekSecond place ?_)
    simp only [List.head?_cons]
    rw [if_neg (by decide), if_neg (by simp), if_pos (by simp), skipBlock, bind_assoc]
    refine .next (a := offset text ('/' :: '*' :: cs)) rfl List.suffix_rfl ?_
    rw [bind_assoc]
    refine .move ['/', '*'] place ?_
    rw [bind_assoc]
    refine .next (rest_at ((List.suffix_cons ..).trans inner)) List.suffix_rfl ?_
    dsimp only [resume] at later
    cases found : offsetOf? ['*', '/'] cs with
    | none =>
      simp only [found] at later ⊢
      exact later
    | some stop =>
      simp only [found] at later ⊢
      exact later
  | case8 c cs _ _ white ih =>
    rw [resume, skipTrivia_eq]
    refine .peek place (.peekSecond place ?_)
    dsimp only [List.head?_cons]
    rw [if_pos white]
    exact .bump place (ih ((List.suffix_cons ..).trans place))
  | case9 c cs line block white =>
    rw [resume, skipTrivia_eq]
    refine .peek place (.peekSecond place ?_)
    simp only [List.head?_cons]
    rw [if_neg white, if_neg, if_neg]
    · exact follows_pure _
    · rintro ⟨rfl, second⟩
      obtain ⟨cs', same⟩ := starts_iff.1 ⟨List.head?_cons .., second⟩
      exact block cs' rfl (List.cons.inj same).2
    · rintro ⟨rfl, second⟩
      obtain ⟨cs', same⟩ := starts_iff.1 ⟨List.head?_cons .., second⟩
      exact line cs' rfl (List.cons.inj same).2

section

variable {β : Type} {text cs : List Char}

theorem follows_skip (place : cs <:+ text) :
    Follows text cs skipTrivia ((skip cs).map ((), ·)) := follows_skipFrom text .tokens cs place

theorem Follows.then {m : Machine Unit} {next : Unit → Machine β} {r : Except Fault (List Char)}
    {k : List Char → Except Fault (Reading β)} (first : Follows text cs m (r.map ((), ·)))
    (more : ∀ rest, r = .ok rest → rest <:+ cs → Follows text rest (next ()) (k rest)) :
    Follows text cs (m >>= next) (r >>= k) := by
  cases r with
  | error f => exact bind_of_error first
  | ok rest => exact .next first.2 first.1 (more rest rfl first.1)

def taken (c : Char) : List Char → Except Fault (Reading Unit)
  | d :: rest => if d = c then .ok ((), rest) else .error (.unexpected (d :: rest))
  | [] => .error (.unexpected [])

theorem follows_expect (c : Char) (place : cs <:+ text) :
    Follows text cs (Bytewise.expect c) ((Message.expect c cs).map ((), ·)) := by
  have whole : (Message.expect c cs).map ((), ·) = skip cs >>= taken c := by
    rw [Message.expect]
    cases skip cs with
    | error f => rfl
    | ok rest =>
      cases rest with
      | nil => rfl
      | cons d rest => exact apply_ite (Except.map ((), ·)) (d = c) (.ok rest) _
  rw [whole]
  refine (follows_skip place).then fun rest _ inner => .peek (inner.trans place) ?_
  cases rest with
  | nil => exact follows_unexpected (inner.trans place)
  | cons d rest =>
    simp only [List.head?_cons, Option.some.injEq, taken]
    split
    · exact .bump (inner.trans place) (follows_pure _)
    · exact follows_unexpected (inner.trans place)

def ended {α : Type} (a : α) : List Char → Except Fault (Reading α)
  | [] => .ok (a, [])
  | d :: rest => .error (.unexpected (d :: rest))

theorem follows_finish {α : Type} (a : α) (place : cs <:+ text) :
    Follows text cs (expectEnd >>= fun _ => pure a) ((finish (a, cs)).map (·, [])) := by
  have whole : (finish (a, cs)).map (·, ([] : List Char)) = skip cs >>= ended a := by
    rw [finish]
    cases skip cs with
    | error f => rfl
    | ok rest => cases rest <;> rfl
  rw [whole, expectEnd, bind_assoc]
  refine (follows_skip place).then fun rest _ inner => ?_
  rw [bind_assoc]
  refine .next (a := offset text rest) rfl List.suffix_rfl ?_
  rw [bind_assoc]
  refine .next (a := text) rfl List.suffix_rfl ?_
  cases rest with
  | nil =>
    rw [if_pos (by simp [offset, byteLength])]
    exact follows_pure _
  | cons d rest =>
    have before : offset text (d :: rest) ≠ byteLength text := by
      have positive := d.utf8Size_pos
      have fits := congrArg byteLength (inner.trans place).choose_spec
      simp only [byteLength_append, byteLength] at fits
      simp only [offset, byteLength]
      omega
    rw [if_neg before]
    exact bind_of_error (follows_unexpected (inner.trans place))

end

/-! ## Escapes -/

section

variable {α : Type} {text cs : List Char}

def Finds (text cs : List Char) (machine : Machine (Option α)) : Option (Reading α) → Prop
  | some (a, rest) =>
    rest <:+ cs ∧ machine text (offset text cs) = some (.ok (some a, offset text rest))
  | none => ∃ stop, machine text (offset text cs) = some (.ok (none, stop))

theorem byteLength_digits {digits : List Char} (h : ∀ c ∈ digits, (hexValue? c).isSome = true) :
    byteLength digits = digits.length := by
  induction digits with
  | nil => rfl
  | cons c digits ih =>
    obtain ⟨first, others⟩ := List.forall_mem_cons.1 h
    have small : c.val ≤ 0x7f := by
      unfold hexValue? at first
      simp only [Char.le_def] at first
      split at first
      next digit => exact UInt32.le_trans digit.2 (by decide)
      next =>
        split at first
        next digit => exact UInt32.le_trans digit.2 (by decide)
        next =>
          split at first
          next digit => exact UInt32.le_trans digit.2 (by decide)
          next => cases first
    have one : c.utf8Size = 1 := if_pos small
    rw [byteLength, ih others, one, List.length_cons, Nat.add_comm]

theorem Finds.next {β : Type} {m : Machine β} {next : β → Machine (Option α)} {b : β}
    {mid : List Char} {r : Option (Reading α)}
    (first : m text (offset text cs) = some (.ok (b, offset text mid))) (place : mid <:+ cs)
    (more : Finds text mid (next b) r) : Finds text cs (m >>= next) r := by
  cases r with
  | none => exact more.imp fun stop same => (bind_of_ok first).trans same
  | some r => exact ⟨more.1.trans place, (bind_of_ok first).trans more.2⟩

theorem finds_none : Finds (α := α) text cs (pure none) none := ⟨_, rfl⟩

theorem finds_some (a : α) : Finds text cs (pure (some a)) (some (a, cs)) := ⟨List.suffix_rfl, rfl⟩

theorem finds_hexDigits (count : Nat) (place : cs <:+ text) :
    Finds text cs (hexDigits count) (readHex count cs) := by
  refine .next (b := offset text cs) rfl List.suffix_rfl ?_
  refine .next (b := text) rfl List.suffix_rfl ?_
  rw [slice?_offset place]
  cases read : readHex count cs with
  | some r =>
    obtain ⟨n, rest⟩ := r
    obtain ⟨digits, rfl, rfl, number⟩ := Grammar.digits_of_readHex read
    have each := isSome_of_hexNumber? number
    have whole : splitAt? digits.length (digits ++ rest) = some (digits, rest) := by
      rw [← byteLength_digits each]
      exact splitAt?_append digits rest
    simp only [whole, Option.map_some]
    rw [if_pos (List.all_eq_true.2 each), number, ← byteLength_digits each]
    exact .next (move_at place) (List.suffix_append ..) (finds_some n)
  | none =>
    cases found : splitAt? count cs with
    | none => exact finds_none
    | some parts =>
      obtain ⟨digits, rest⟩ := parts
      obtain ⟨rfl, rfl⟩ := splitAt?_eq_some found
      simp only [Option.map_some]
      split
      next each =>
        have own : byteLength digits = digits.length := byteLength_digits (List.all_eq_true.1 each)
        rw [readHex, own, List.take_left, if_neg (by simp)] at read
        rw [Option.map_eq_none_iff.1 read]
        exact .next (move_at place) (List.suffix_append ..) finds_none
      next => exact finds_none

theorem offsetOf?_char (c : Char) (cs : List Char) :
    offsetOf? [c] cs = if cs.dropWhile (· ≠ c) = [] then none
      else some (byteLength (cs.takeWhile (· ≠ c))) := by
  induction cs with
  | nil => rfl
  | cons d cs ih =>
    by_cases same : d = c
    · subst same
      simp [offsetOf?, byteLength]
    · rw [offsetOf?, if_neg (by simpa using Ne.symm same), ih, List.dropWhile_cons_of_pos (by simpa),
        List.takeWhile_cons_of_pos (by simpa)]
      split <;> rfl

theorem finds_unicodeCode (place : cs <:+ text) : Finds text cs unicodeCode (readCode cs) := by
  refine .next (peek_at place) List.suffix_rfl ?_
  fun_cases readCode cs with
  | case1 cs =>
    have inner : cs <:+ text := (List.suffix_cons ..).trans place
    have parts := List.takeWhile_append_dropWhile (p := (· ≠ '}')) (l := cs)
    simp only [List.head?_cons, if_true]
    refine .next (bump_at place) (List.suffix_cons ..) (.next (rest_at inner) List.suffix_rfl ?_)
    rw [offsetOf?_char, readBraced]
    cases ends : cs.dropWhile (· ≠ '}') with
    | nil => exact finds_none
    | cons c rest =>
      have close : c = '}' := by
        have head := List.head?_dropWhile_not (· ≠ '}') cs
        rw [ends] at head
        simpa using head
      subst close
      generalize cs.takeWhile (· ≠ '}') = digits at parts ⊢
      rw [ends] at parts
      obtain rfl := parts
      rw [if_neg (by simp)]
      dsimp only
      rw [splitAt?_append]
      refine .next (b := (digits, '}' :: rest)) rfl List.suffix_rfl ?_
      have behind : digits ++ '}' :: rest = (digits ++ ['}']) ++ rest := by simp
      have size : byteLength digits + 1 = byteLength (digits ++ ['}']) := by
        rw [byteLength_append]
        rfl
      rw [behind] at inner ⊢
      dsimp only [wordOf?]
      rw [size]
      by_cases blank : (bracedDigits digits).isEmpty = true
      · simp only [blank, if_true, Bool.true_or]
        split <;> exact finds_none
      simp only [blank, Bool.false_or]
      cases number : hexNumber? (bracedDigits digits) with
      | none => exact finds_none
      | some n =>
        by_cases large : 0x10ffff < n
        · simp only [large, decide_true, if_true, Option.filter_some, Bool.false_eq_true, if_false]
          split
          next => exact finds_none
          next found =>
            obtain ⟨-, same⟩ := Option.ite_none_right_eq_some.1 found
            obtain rfl := Option.some.inj same
            rw [if_neg (Nat.not_le.2 large)]
            exact .next (move_at inner) (List.suffix_append ..) finds_none
        · have small : n < 0x100000000 := by omega
          have within : n ≤ 0x10ffff := Nat.not_lt.1 large
          simp only [large, small, within, Option.filter_some, decide_true, decide_false, if_true,
            Bool.false_eq_true, if_false]
          exact .next (move_at inner) (List.suffix_append ..) (finds_some n)
  | case2 =>
    rw [if_neg]
    · exact finds_hexDigits 4 place
    · rw [List.head?_eq_some_iff]
      rintro ⟨cs', rfl⟩
      next other => exact other cs' rfl

def orFault (f : Fault) : Option α → Except Fault α
  | some a => .ok a
  | none => .error f

theorem Finds.follows {β : Type} {m : Machine (Option α)} {next : Option α → Machine β}
    {r : Option (Reading α)} {k : Reading α → Option (Reading β)} {f : Fault} (h : Finds text cs m r)
    (fails : next none = refuse (f.locate text))
    (more : ∀ a rest, r = some (a, rest) → rest <:+ cs →
      Follows text rest (next (some a)) (orFault f (k (a, rest)))) :
    Follows text cs (m >>= next) (orFault f (r >>= k)) := by
  cases r with
  | none =>
    obtain ⟨stop, same⟩ := h
    refine (bind_of_ok same).trans ?_
    rw [fails]
    rfl
  | some r => exact .next h.2 h.1 (more r.1 r.2 rfl h.1)

theorem follows_charOf (text cs start : List Char) (code : Nat) :
    Follows text cs (charOf (offset text start) code)
      (orFault (.invalidEscape start) (if code.isValidChar then some ([Char.ofNat code], cs) else none)) := by
  unfold charOf
  split
  · exact follows_pure _
  · rfl

theorem follows_surrogates {start : List Char} (code : Nat) (place : cs <:+ text) :
    Follows text cs (if 0xd800 ≤ code ∧ code < 0xdc00 then surrogates (offset text start) code
        else charOf (offset text start) code)
      (orFault (.invalidEscape start) (do
        let (c, rest) ← readSurrogates code cs
        return ([c], rest))) := by
  unfold readSurrogates
  split
  next high =>
    refine .peek place (.peekSecond place ?_)
    split
    next heads =>
      obtain ⟨cs, rfl⟩ := starts_iff.1 heads
      have inner := (List.suffix_append ['\\', 'u'] cs).trans place
      refine .move ['\\', 'u'] place ?_
      simp only [Option.bind_eq_bind, Option.bind_assoc]
      refine (finds_unicodeCode inner).follows rfl fun low rest read _ => ?_
      dsimp only
      split
      next second =>
        have valid : (0x10000 + (code - 0xd800) * 0x400 + (low - 0xdc00)).isValidChar := by
          right
          omega
        generalize 0x10000 + (code - 0xd800) * 0x400 + (low - 0xdc00) = whole at valid ⊢
        have char := follows_charOf text rest start whole
        rw [if_pos valid] at char
        exact char
      next => exact follows_refuse (.invalidEscape start)
    next heads =>
      split
      next cs => exact absurd (starts_iff.2 ⟨cs, rfl⟩) heads
      next => rfl
  next low =>
    have char := follows_charOf text cs start code
    split
    next valid => rwa [if_pos valid] at char
    next invalid => rwa [if_neg invalid] at char

theorem not_zero {c : Char} {cs : List Char} (alone : c = '0' → cs = [] → False)
    (before : ∀ d rest, c = '0' → cs = d :: rest → False) : c ≠ '0' := by
  intro zero
  cases cs with
  | nil => exact alone zero rfl
  | cons d rest => exact before d rest zero rfl

theorem follows_escape (place : '\\' :: cs <:+ text) :
    Follows text cs escape
      (orFault (if cs = [] then .unexpected [] else .invalidEscape ('\\' :: cs)) (readEscape cs)) := by
  have inner : cs <:+ text := (List.suffix_cons ..).trans place
  have start : offset text cs - 1 = offset text ('\\' :: cs) := by
    rw [offset_cons place]
    rfl
  refine .next (a := offset text cs) rfl List.suffix_rfl ?_
  dsimp only
  rw [start]
  fun_cases readEscape cs with
  | case1 => exact (bind_of_ok bump_end).trans rfl
  | case2 | case3 | case4 | case5 | case6 | case7 | case8 => exact .bump inner (follows_pure _)
  | case9 cs =>
    refine .bump inner (.peek ((List.suffix_cons ..).trans inner) ?_)
    exact .bump ((List.suffix_cons ..).trans inner) (follows_pure _)
  | case10 cs alone =>
    refine .bump inner (.peek ((List.suffix_cons ..).trans inner) ?_)
    rw [if_neg]
    · exact follows_pure _
    · rw [List.head?_eq_some_iff]
      rintro ⟨cs', rfl⟩
      exact alone cs' rfl
  | case11 cs =>
    refine .bump inner ?_
    rw [if_neg (by simp)]
    refine (finds_hexDigits 2 ((List.suffix_cons ..).trans inner)).follows rfl fun n rest read place' => ?_
    obtain ⟨digits, -, size, number⟩ := Grammar.digits_of_readHex read
    have small : n < 256 := by simpa [size] using hexNumber?_lt number
    have := follows_charOf text rest ('\\' :: 'x' :: cs) n
    rwa [if_pos (.inl (by omega))] at this
  | case12 cs =>
    have behind : cs <:+ text := (List.suffix_cons ..).trans inner
    refine .bump inner ?_
    rw [if_neg (by simp)]
    exact (finds_unicodeCode behind).follows rfl fun n rest _ place' =>
      follows_surrogates n (place'.trans behind)
  | case13 d cs digit =>
    refine .bump inner (.peek ((List.suffix_cons ..).trans inner) ?_)
    simp only [List.head?_cons, digit, if_true]
    rfl
  | case14 d cs digit =>
    refine .bump inner (.peek ((List.suffix_cons ..).trans inner) ?_)
    simp only [List.head?_cons, digit]
    exact follows_pure _
  | case15 => exact .bump inner (.peek ((List.suffix_cons ..).trans inner) (follows_pure _))
  | case16 c cs =>
    refine .bump inner ?_
    have zero : c ≠ '0' := not_zero (by assumption) (by assumption)
    split <;> try (rename_i same; cases same; contradiction)
    next same => cases same
    next same =>
      obtain rfl := Option.some.inj same
      rw [if_pos ‹_›, if_neg (by simp)]
      rfl
  | case17 c cs =>
    refine .bump inner ?_
    have zero : c ≠ '0' := not_zero (by assumption) (by assumption)
    split <;> try (rename_i same; cases same; contradiction)
    next same => cases same
    next same =>
      obtain rfl := Option.some.inj same
      rw [if_neg ‹_›]
      exact follows_pure _

end

end BundlePrep.Message.Bytewise
