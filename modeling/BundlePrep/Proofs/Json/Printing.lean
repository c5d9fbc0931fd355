import BundlePrep.Json.Read
import BundlePrep.Proofs.Script.Quoting

/-!
# Printed values read back

A value that is printed on lines is read back as the value it was, whatever stands behind it, and a
text that is written between quotes is decoded to itself.
-/

set_option autoImplicit false

namespace BundlePrep.Json

open BundlePrep.Text

/-! ## Texts -/

theorem hexNumber?_hexDigit {n : Nat} (small : n < 0x20) :
    hexNumber? ['0', '0', hexDigit (n / 16), hexDigit (n % 16)] = some n := by
  have all : ∀ n < 0x20, hexNumber? ['0', '0', hexDigit (n / 16), hexDigit (n % 16)] = some n := by
    decide
  exact all n small

theorem unescape?_shortForms {c d : Char} (short : (c, d) ∈ shortForms) :
    d ≠ 'u' ∧ unescape? d = some c := by
  have all : ∀ p ∈ shortForms, p.2 ≠ 'u' ∧ unescape? p.2 = some p.1 := by decide
  exact all _ short

theorem readText?_encodeChar (c : Char) (cs : List Char) :
    readText? (encodeChar c ++ cs) =
      (readText? cs).map fun (more, rest) => (encodeChar c ++ more, rest) := by
  rcases encodeChar_forms c with ⟨same, quote, backslash, control⟩ | ⟨d, same, short⟩ |
    ⟨same, control⟩
  · rw [same, List.singleton_append, readText?, if_neg (by simp [backslash, control])]
    · rfl
    all_goals simp [quote, backslash]
  · obtain ⟨unicode, known⟩ := unescape?_shortForms short
    rw [same, List.cons_append, List.singleton_append, readText?, if_neg (by simp [known])]
    · rfl
    simp [unicode]
  · rw [same]
    simp only [List.cons_append, List.nil_append]
    rw [readText?, if_neg (by simp [hexNumber?_hexDigit control])]

theorem readText?_encode (text rest : List Char) :
    readText? (encode text ++ '"' :: rest) = some (encode text, rest) := by
  induction text with
  | nil => rw [encode_nil, List.nil_append, readText?]
  | cons c text ih => rw [encode_cons, List.append_assoc, readText?_encodeChar, ih]; rfl

theorem decode?_encodeChar (c : Char) (cs : List Char) :
    decode? (encodeChar c ++ cs) = (decode? cs).map (c :: ·) := by
  rcases encodeChar_forms c with ⟨same, -, backslash, -⟩ | ⟨d, same, short⟩ |
    ⟨same, control⟩
  · rw [same, List.singleton_append, decode?, if_neg backslash]
    all_goals simp [backslash]
  · obtain ⟨unicode, known⟩ := unescape?_shortForms short
    rw [same, List.cons_append, List.singleton_append, decode?]
    · simp [known]
    simp [unicode]
  · have valid : c.toNat.isValidChar := c.valid
    rw [same]
    simp only [List.cons_append, List.nil_append]
    rw [decode?, hexNumber?_hexDigit control]
    simp only [Option.bind_eq_bind, Option.bind_some]
    rw [if_neg (by omega), if_pos valid, Char.ofNat_toNat]

theorem decode?_encode (text : List Char) : decode? (encode text) = some text := by
  induction text with
  | nil => rw [encode_nil, decode?]
  | cons c text ih => rw [encode_cons, decode?_encodeChar, ih]; rfl

/-! ## Numbers -/

def EndsNumber (rest : List Char) : Prop :=
  ∀ c ∈ rest.head?, c.isDigit = false ∧ c ≠ '.' ∧ c ≠ 'e' ∧ c ≠ 'E'

theorem readDigits?_append {digits rest : List Char} (nonempty : digits ≠ [])
    (all : ∀ d ∈ digits, d.isDigit = true) (ends : EndsNumber rest) :
    readDigits? (digits ++ rest) = some (digits, rest) := by
  have taken : (digits ++ rest).takeWhile Char.isDigit = digits := by
    rw [List.takeWhile_append_of_pos all]
    cases rest with
    | nil => simp
    | cons c rest => simp [(ends c rfl).1]
  have dropped : (digits ++ rest).dropWhile Char.isDigit = rest := by
    rw [List.dropWhile_append_of_pos all]
    cases rest with
    | nil => rfl
    | cons c rest => simp [(ends c rfl).1]
  rw [readDigits?, taken, dropped]
  simp [nonempty]

theorem readNumber?_toDigits (n : Nat) {rest : List Char} (ends : EndsNumber rest) :
    readNumber? (Nat.toDigits 10 n ++ rest) = some (Nat.toDigits 10 n, rest) := by
  obtain ⟨d, ds, digits, digit⟩ := Script.toDigits_eq_cons n
  have minus : d ≠ '-' := by
    rintro rfl
    cases digit
  have sign : readSign ['-'] (Nat.toDigits 10 n ++ rest) = ([], Nat.toDigits 10 n ++ rest) := by
    rw [digits, List.cons_append, readSign, if_neg (by simpa using minus)]
  have leading : ¬((Nat.toDigits 10 n).head? = some '0' ∧ (Nat.toDigits 10 n).length ≠ 1) := by
    rintro ⟨zero, more⟩
    rcases Nat.eq_zero_or_pos n with rfl | positive
    · exact more rfl
    · exact Script.head_toDigits positive zero
  have whole : readWhole? (Nat.toDigits 10 n ++ rest) = some (Nat.toDigits 10 n, rest) := by
    rw [readWhole?, readDigits?_append Nat.toDigits_ne_nil Script.isDigit_of_mem_toDigits ends]
    simp only [Option.bind_eq_bind, Option.bind_some]
    rw [if_neg leading]
    rfl
  have fraction : readFraction? rest = some ([], rest) := by
    cases rest with
    | nil => rfl
    | cons c rest =>
      rw [readFraction?]
      rintro cs same
      exact (ends c rfl).2.1 (List.cons.inj same).1
  have exponent : readExponent? rest = some ([], rest) := by
    cases rest with
    | nil => rfl
    | cons c rest => rw [readExponent?, if_neg (by simp [(ends c rfl).2.2])]
  rw [readNumber?, sign]
  simp [whole, fraction, exponent]

theorem head_of_readNumber? {cs : List Char} {r : List Char × List Char}
    (h : readNumber? cs = some r) : ∃ c ∈ cs.head?, c.isDigit = true ∨ c = '-' := by
  cases cs with
  | nil => cases h
  | cons c cs =>
    refine ⟨c, rfl, ?_⟩
    by_contra other
    rw [not_or] at other
    rw [readNumber?, readSign, if_neg (by simpa using other.2)] at h
    simp [readWhole?, readDigits?, other.1] at h

/-! ## Values -/

mutual
def Value.Sound : Value → Prop
  | .number written =>
    ∀ rest, EndsNumber rest → readNumber? (written ++ rest) = some (written, rest)
  | .text written => ∀ rest, readText? (written ++ '"' :: rest) = some (written, rest)
  | .list items => SoundItems items
  | .object members => SoundMembers members
  | _ => True

def SoundItems : List Value → Prop
  | [] => True
  | v :: vs => v.Sound ∧ SoundItems vs

def SoundMembers : List (List Char × Value) → Prop
  | [] => True
  | (name, v) :: ms =>
    (∀ rest, readText? (name ++ '"' :: rest) = some (name, rest)) ∧ v.Sound ∧ SoundMembers ms
end

theorem sound_ofNat (n : Nat) : (Value.ofNat n).Sound := fun _ => readNumber?_toDigits n

theorem sound_ofMembers {members : List (String × Value)} (sound : ∀ m ∈ members, m.2.Sound) :
    (Value.ofMembers members).Sound := by
  show SoundMembers _
  induction members with
  | nil => trivial
  | cons m members ih =>
    exact ⟨readText?_encode _, sound m (by simp), ih fun m mem => sound m (by simp [mem])⟩

def Opens (cs : List Char) : Prop :=
  ∃ c more, cs = c :: more ∧ isSpace c = false ∧ c ≠ ']' ∧ c ≠ '}'

theorem skipSpace_gap {gap : List Char} (blank : ∀ c ∈ gap, isSpace c = true) (cs : List Char) :
    skipSpace (gap ++ cs) = skipSpace cs :=
  List.dropWhile_append_of_pos blank

theorem skipSpace_opens {cs : List Char} (opens : Opens cs) : skipSpace cs = cs := by
  obtain ⟨c, more, rfl, other, -⟩ := opens
  simp [skipSpace, other]

theorem blank_newLine (level : Nat) : ∀ c ∈ Value.newLine level, isSpace c = true := by
  intro c mem
  rcases List.mem_cons.1 mem with rfl | mem
  · rfl
  · rw [(List.mem_replicate.1 mem).2]
    rfl

theorem opens_pretty {v : Value} (sound : v.Sound) (level : Nat) (rest : List Char) :
    Opens (v.prettyChars level ++ rest) := by
  cases v with
  | null => exact ⟨_, _, rfl, by decide⟩
  | boolean value => cases value <;> exact ⟨_, _, rfl, by decide⟩
  | number written =>
    have alone := sound [] (by simp [EndsNumber])
    rw [List.append_nil] at alone
    obtain ⟨c, first, plain⟩ := head_of_readNumber? alone
    obtain ⟨more, rfl⟩ := List.head?_eq_some_iff.1 first
    refine ⟨c, more ++ rest, by rw [Value.prettyChars, List.cons_append], ?_⟩
    rcases plain with digit | rfl
    · refine ⟨?_, ?_, ?_⟩
      · by_contra space
        simp only [isSpace, Bool.not_eq_false, Bool.or_eq_true, beq_iff_eq] at space
        rcases space with ((rfl | rfl) | rfl) | rfl <;> cases digit
      all_goals
        rintro rfl
        cases digit
    · decide
  | text written => exact ⟨_, _, rfl, by decide⟩
  | list items => cases items <;> exact ⟨_, _, rfl, by decide⟩
  | object members => rcases members with _ | ⟨⟨name, v⟩, ms⟩ <;> exact ⟨_, _, rfl, by decide⟩

theorem endsNumber_items (level : Nat) (vs : List Value) (rest : List Char) :
    EndsNumber (Value.prettyItems level vs ++ rest) := by
  cases vs <;> simp [EndsNumber, Value.prettyItems, Value.newLine]

theorem endsNumber_members (level : Nat) (ms : List (List Char × Value)) (rest : List Char) :
    EndsNumber (Value.prettyMembers level ms ++ rest) := by
  rcases ms with _ | ⟨⟨name, v⟩, ms⟩ <;>
    simp [EndsNumber, Value.prettyMembers, Value.newLine]

theorem readValue?_number {cs rest written : List Char} (h : readNumber? cs = some (written, rest))
    (opens : Opens cs) (fuel : Nat) : readValue? (fuel + 1) cs = some (.number written, rest) := by
  obtain ⟨c, first, plain⟩ := head_of_readNumber? h
  obtain ⟨more, rfl⟩ := List.head?_eq_some_iff.1 first
  rw [readValue?, skipSpace_opens opens]
  split
  case h_7 => rw [h]; rfl
  all_goals
    next same =>
    obtain ⟨rfl, -⟩ := List.cons.inj same
    exact absurd plain (by decide)

theorem readValue?_gap {gap : List Char} (blank : ∀ c ∈ gap, isSpace c = true) (fuel : Nat)
    (cs : List Char) : readValue? fuel (gap ++ cs) = readValue? fuel cs := by
  cases fuel with
  | zero => rfl
  | succ fuel => rw [readValue?, readValue?, skipSpace_gap blank]

theorem readMembers?_gap {gap : List Char} (blank : ∀ c ∈ gap, isSpace c = true) (fuel : Nat)
    (cs : List Char) : readMembers? fuel (gap ++ cs) = readMembers? fuel cs := by
  cases fuel with
  | zero => rfl
  | succ fuel => rw [readMembers?, readMembers?, skipSpace_gap blank]

theorem readItems?_gap {gap : List Char} (blank : ∀ c ∈ gap, isSpace c = true) (fuel : Nat)
    (cs : List Char) : readItems? fuel (gap ++ cs) = readItems? fuel cs := by
  cases fuel with
  | zero => rfl
  | succ fuel => rw [readItems?, readItems?, readValue?_gap blank]

theorem readValue?_text {cs rest written : List Char} (h : readText? cs = some (written, rest))
    (fuel : Nat) : readValue? (fuel + 1) ('"' :: cs) = some (.text written, rest) := by
  have opens : Opens ('"' :: cs) := ⟨_, _, rfl, by decide⟩
  rw [readValue?, skipSpace_opens opens]
  simp [h]

theorem readValue?_list {cs rest : List Char} {vs : List Value} {fuel : Nat}
    (h : readItems? fuel cs = some (vs, rest)) (opens : Opens cs) (level : Nat) :
    readValue? (fuel + 1) ('[' :: (Value.newLine level ++ cs)) = some (.list vs, rest) := by
  have whole : Opens ('[' :: (Value.newLine level ++ cs)) := ⟨_, _, rfl, by decide⟩
  have inside : skipSpace (Value.newLine level ++ cs) = cs := by
    rw [skipSpace_gap (blank_newLine level), skipSpace_opens opens]
  obtain ⟨c, more, rfl, -, bracket, -⟩ := opens
  rw [readValue?, skipSpace_opens whole]
  simp only [inside]
  split
  next same => exact absurd (List.cons.inj same).1 bracket
  next => rw [h]; rfl

theorem readValue?_object {cs rest : List Char} {ms : List (List Char × Value)} {fuel : Nat}
    (h : readMembers? fuel cs = some (ms, rest)) (opens : Opens cs) (level : Nat) :
    readValue? (fuel + 1) ('\x7b' :: (Value.newLine level ++ cs)) = some (.object ms, rest) := by
  have whole : Opens ('\x7b' :: (Value.newLine level ++ cs)) := ⟨_, _, rfl, by decide⟩
  have inside : skipSpace (Value.newLine level ++ cs) = cs := by
    rw [skipSpace_gap (blank_newLine level), skipSpace_opens opens]
  obtain ⟨c, more, rfl, -, -, brace⟩ := opens
  rw [readValue?, skipSpace_opens whole]
  simp only [inside]
  split
  next same => exact absurd (List.cons.inj same).1 brace
  next => rw [h]; rfl

def memberChars (level : Nat) (name : List Char) (v : Value) : List Char :=
  Value.quoted name ++ ':' :: ' ' :: v.prettyChars level

theorem opens_member (level : Nat) (name : List Char) (v : Value) (rest : List Char) :
    Opens (memberChars level name v ++ rest) := ⟨'"', _, rfl, by decide⟩

theorem length_pretty {v : Value} (sound : v.Sound) (level : Nat) :
    0 < (v.prettyChars level).length := by
  obtain ⟨c, more, printed, -⟩ := opens_pretty sound level []
  rw [List.append_nil] at printed
  simp [printed]

theorem readMembers?_member {name : List Char} {v : Value} {fuel level : Nat} {rest : List Char}
    (named : ∀ rest, readText? (name ++ '"' :: rest) = some (name, rest))
    (value : readValue? fuel (v.prettyChars level ++ rest) = some (v, rest)) :
    readMembers? (fuel + 1) (memberChars level name v ++ rest) =
      match skipSpace rest with
      | ',' :: rest => (readMembers? fuel rest).map fun (ms, rest) => ((name, v) :: ms, rest)
      | '}' :: rest => some ([(name, v)], rest)
      | _ => none := by
  have read := named (':' :: ' ' :: (v.prettyChars level ++ rest))
  have shape : memberChars level name v ++ rest =
      '"' :: (name ++ '"' :: ':' :: ' ' :: (v.prettyChars level ++ rest)) := by
    simp [memberChars, Value.quoted]
  have colon : skipSpace (':' :: ' ' :: (v.prettyChars level ++ rest)) =
      ':' :: ' ' :: (v.prettyChars level ++ rest) := by
    simp [skipSpace, isSpace]
  have gap := @readValue?_gap [' '] (by decide) fuel (v.prettyChars level ++ rest)
  rw [value] at gap
  have opens := opens_member level name v rest
  rw [readMembers?, skipSpace_opens opens, shape]
  simp only [Option.bind_eq_bind, read, Option.bind_some, colon]
  rw [← List.singleton_append, gap]
  rfl

def ReadsValue (fuel : Nat) : Prop :=
  ∀ (v : Value) (level : Nat) (rest : List Char), v.Sound → EndsNumber rest →
    (v.prettyChars level).length ≤ fuel →
    readValue? fuel (v.prettyChars level ++ rest) = some (v, rest)

def ReadsItems (fuel : Nat) : Prop :=
  ∀ (v : Value) (vs : List Value) (level : Nat) (rest : List Char), v.Sound → SoundItems vs →
    (v.prettyChars (level + 1)).length + (Value.prettyItems level vs).length < fuel →
    readItems? fuel (v.prettyChars (level + 1) ++ (Value.prettyItems level vs ++ rest)) =
      some (v :: vs, rest)

def ReadsMembers (fuel : Nat) : Prop :=
  ∀ (name : List Char) (v : Value) (ms : List (List Char × Value)) (level : Nat)
    (rest : List Char), SoundMembers ((name, v) :: ms) →
    (memberChars (level + 1) name v).length + (Value.prettyMembers level ms).length < fuel →
    readMembers? fuel (memberChars (level + 1) name v ++ (Value.prettyMembers level ms ++ rest)) =
      some ((name, v) :: ms, rest)

theorem ReadsItems.value {fuel : Nat} (items : ReadsItems fuel) (members : ReadsMembers fuel) :
    ReadsValue (fuel + 1) := by
  intro v level rest sound ends enough
  have opens := opens_pretty sound level rest
  match v with
  | .null | .boolean true | .boolean false | .list [] | .object [] =>
    rw [readValue?, skipSpace_opens opens]
    simp [Value.prettyChars, readWord?, skipSpace, isSpace]
  | .number written => exact readValue?_number (sound rest ends) opens fuel
  | .text written =>
    rw [Value.prettyChars, Value.quoted, List.cons_append, List.cons_append, List.append_assoc,
      List.singleton_append]
    exact readValue?_text (sound rest) fuel
  | .list (v :: vs) =>
    simp only [Value.prettyChars, Value.newLine, List.length_append, List.length_cons,
      List.append_assoc, List.cons_append] at enough ⊢
    exact readValue?_list (items v vs level rest sound.1 sound.2 (by omega))
      (opens_pretty sound.1 (level + 1) _) (level + 1)
  | .object ((name, v) :: ms) =>
    have shape (rest : List Char) : (Value.object ((name, v) :: ms)).prettyChars level ++ rest =
        '\x7b' :: (Value.newLine (level + 1) ++
          (memberChars (level + 1) name v ++ (Value.prettyMembers level ms ++ rest))) := by
      simp [Value.prettyChars, memberChars]
    have length := congrArg List.length (shape [])
    simp only [Value.newLine, List.length_append, List.length_cons, List.append_nil] at length
    rw [shape]
    exact readValue?_object (members name v ms level rest sound (by omega))
      (opens_member (level + 1) name v _) (level + 1)

theorem ReadsValue.items {fuel : Nat} (value : ReadsValue fuel) (items : ReadsItems fuel) :
    ReadsItems (fuel + 1) := by
  intro v vs level rest first others enough
  rw [readItems?, value v (level + 1) _ first (endsNumber_items level vs rest) (by omega)]
  simp only [Option.bind_eq_bind, Option.bind_some]
  cases vs with
  | nil =>
    have closes : skipSpace (Value.prettyItems level [] ++ rest) = ']' :: rest := by
      rw [Value.prettyItems, List.append_assoc, skipSpace_gap (blank_newLine level)]
      rfl
    simp [closes]
  | cons w vs =>
    have goesOn : skipSpace (Value.prettyItems level (w :: vs) ++ rest) =
        ',' :: (Value.newLine (level + 1) ++
          (w.prettyChars (level + 1) ++ (Value.prettyItems level vs ++ rest))) := by
      simp [Value.prettyItems, skipSpace, isSpace]
    simp only [Value.prettyItems, Value.newLine, List.length_append, List.length_cons] at enough
    have more := items w vs level rest others.1 others.2 (by omega)
    simp [goesOn, readItems?_gap (blank_newLine _), more]

theorem ReadsValue.members {fuel : Nat} (value : ReadsValue fuel) (members : ReadsMembers fuel) :
    ReadsMembers (fuel + 1) := by
  intro name v ms level rest sound enough
  obtain ⟨named, first, others⟩ := sound
  have own : (v.prettyChars (level + 1)).length ≤ fuel := by
    simp only [memberChars, List.length_append, List.length_cons] at enough
    omega
  rw [readMembers?_member named
    (value v (level + 1) _ first (endsNumber_members level ms rest) own)]
  cases ms with
  | nil =>
    have closes : skipSpace (Value.prettyMembers level [] ++ rest) = '\x7d' :: rest := by
      rw [Value.prettyMembers, List.append_assoc, skipSpace_gap (blank_newLine level)]
      rfl
    simp [closes]
  | cons m ms =>
    obtain ⟨name', w⟩ := m
    have shape (rest : List Char) : Value.prettyMembers level ((name', w) :: ms) ++ rest =
        ',' :: (Value.newLine (level + 1) ++
          (memberChars (level + 1) name' w ++ (Value.prettyMembers level ms ++ rest))) := by
      simp [Value.prettyMembers, memberChars]
    have length := congrArg List.length (shape [])
    simp only [Value.newLine, List.length_append, List.length_cons, List.append_nil] at length
    have goesOn : skipSpace (Value.prettyMembers level ((name', w) :: ms) ++ rest) =
        ',' :: (Value.newLine (level + 1) ++
          (memberChars (level + 1) name' w ++ (Value.prettyMembers level ms ++ rest))) := by
      rw [shape]
      rfl
    have more := members name' w ms level rest others (by omega)
    simp [goesOn, readMembers?_gap (blank_newLine _), more]

theorem reads_pretty (fuel : Nat) : ReadsValue fuel ∧ ReadsItems fuel ∧ ReadsMembers fuel := by
  induction fuel with
  | zero =>
    refine ⟨fun v level rest sound _ enough => ?_, fun _ _ _ _ _ _ enough => ?_,
      fun _ _ _ _ _ _ enough => ?_⟩
    · exact absurd (length_pretty sound level) (by omega)
    all_goals exact absurd enough (Nat.not_lt_zero _)
  | succ fuel ih =>
    obtain ⟨value, items, members⟩ := ih
    exact ⟨items.value members, value.items items, value.members members⟩

theorem read?_pretty {v : Value} (sound : v.Sound) : Value.read? v.pretty.toList = some v := by
  have read := (reads_pretty ((v.prettyChars 0).length + 1)).1 v 0 [] sound
    (by simp [EndsNumber]) (by omega)
  rw [List.append_nil] at read
  rw [Value.pretty, String.toList_ofList, Value.read?, read]
  rfl

end BundlePrep.Json
