import BundlePrep.Proofs.Message.Evaluation

/-!
# Keys in the language

A text that is read as a key may be an expression of the language, a text or an object. Where both read
its texts alike, the key and its comments are what the language has by the names of the members.
-/

set_option autoImplicit false

namespace BundlePrep.Message.Grammar

open BundlePrep.Text
open BundlePrep.Script (Chained Content Cooked Creates Evaluates Listed Membered Named Silent Valued
  behindGap? escaped? isLineEnd lastNamed? skipGap skipGap_char unitsOf unitsOf_injective)

theorem Piece.Sound.silent {p : Piece} (h : p.Sound shared) : p.Sound silent :=
  h.within (shared_within_silent _)

/-! ## Items -/

structure Mirrored {α β : Type} (form : List Token → α → Prop) (item : List Char → β → List Char → Prop)
    (f : α → β) : Prop where
  opens {ts : List Token} {a : α} : form ts a → Opens ts
  begins {cs rest : List Char} {b : β} : item cs b rest →
    ∃ c more, behindGap? false cs = some (c :: more) ∧ c ∉ marks ∧ c ≠ '\x85'
  reads {ps : List Piece} {after rest behind : List Char} {a : α} {b : β} :
    (∀ p ∈ ps, p.Sound shared) → form (tokens ps) a →
    (∀ more, behindGap? false after ≠ some ('+' :: more)) → item (spell ps ++ after) b rest →
    behindGap? false rest = some behind →
    behind.head? ≠ some '+' ∧ behind.head? ≠ some '\x85' → rest = after ∧ b = f a

theorem mirrored_chain : Mirrored Chain Chained unitsOf where
  opens := Chain.opens
  begins chained := by
    have outside : ∀ c ∈ ['\x27', '"', '\x60'], c ∉ marks ∧ c ≠ '\x85' := by decide
    cases chained with
    | one found quoted => exact ⟨_, _, found, outside _ quoted⟩
    | more found quoted => exact ⟨_, _, found, outside _ quoted⟩
  reads sound chain ends chained stops other := by
    obtain ⟨same, compares⟩ := chained_chain shared_within_silent sound chain ends chained stops other
    exact ⟨same, compares.shared_eq⟩

theorem ends_mark {gap : List Char} {c : Char} (h : Piece.Sound shared ⟨gap, .mark c⟩) (plus : c ≠ '+')
    (rest more : List Char) : behindGap? false (gap ++ c :: rest) ≠ some ('+' :: more) := by
  intro found
  have token := token_of_behindGap? h.silent found (by simp)
  exact plus (List.cons.inj token).1

theorem not_mark_of_opens {ps : List Piece} {after cs : List Char} {c : Char}
    (sound : ∀ p ∈ ps, p.Sound shared) (opens : Opens (tokens ps))
    (found : behindGap? false (spell ps ++ after) = some (c :: cs)) : c ∉ marks := by
  intro mark
  obtain ⟨t, others, same, begins⟩ := opens
  obtain ⟨gap, qs, rfl, -⟩ := tokens_eq_cons same
  have piece := sound _ (List.mem_cons_self ..)
  rw [spell_cons, List.append_assoc, List.append_assoc] at found
  have token := token_of_behindGap? piece.silent found (head?_ne_of_mem mark (by decide) cs)
  exact head?_of_begins piece.token begins mark _ (congrArg List.head? token)

theorem opening_of_enclosed {α : Type} {form : List Token → α → Prop} {opening close : Char}
    {ps : List Piece} {as : List α} {after cs : List Char} {c : Char} (sound : ∀ p ∈ ps, p.Sound shared)
    (enclosed : Enclosed opening close form (tokens ps) as)
    (found : behindGap? false (spell ps ++ after) = some (c :: cs)) (other : c ≠ '\x85') :
    c = opening := by
  obtain ⟨inner, same, -⟩ := enclosed
  obtain ⟨gap, qs, rfl, -⟩ := tokens_eq_cons same
  rw [spell_cons, List.append_assoc, List.append_assoc] at found
  have token := token_of_behindGap? (sound _ (List.mem_cons_self ..)).silent found
    (by simpa using other)
  exact (List.cons.inj token).1.symm

section

variable {α β : Type} {close : Char} {form : List Token → α → Prop}
  {item : List Char → β → List Char → Prop} {f : α → β} (mirrored : Mirrored form item f)
  (closing : close ∈ [']', '}'])
include mirrored closing

theorem listed_items {ps : List Piece} {gap more rest : List Char} {as : List α} {bs : List β}
    (sound : ∀ p ∈ ps, p.Sound shared) (last : Piece.Sound shared ⟨gap, .mark close⟩)
    (items : Items form (tokens ps) as)
    (listed : Listed close item (spell ps ++ (gap ++ close :: more)) bs rest) :
    rest = more ∧ bs = as.map f := by
  obtain ⟨mark, comma, plus, solid⟩ : close ∈ marks ∧ close ≠ ',' ∧ close ≠ '+' ∧ close ≠ '\x85' := by
    have all : ∀ c ∈ [']', '}'], c ∈ marks ∧ c ≠ ',' ∧ c ≠ '+' ∧ c ≠ '\x85' := by decide
    exact all close closing
  have closes {behind : List Char} (found : behindGap? false (gap ++ close :: more) = some behind)
      (other : behind.head? ≠ some '\x85') : close :: more = behind :=
    token_of_behindGap? last.silent found other
  generalize same : tokens ps = ts at items
  induction items generalizing ps bs with
  | nil =>
    obtain rfl := tokens_eq_nil same
    have none {b : β} {behind : List Char} (own : item (gap ++ close :: more) b behind) : False := by
      obtain ⟨c, cs, found, strange, other⟩ := mirrored.begins own
      obtain ⟨rfl, -⟩ := List.cons.inj (closes found (by simpa using other))
      exact strange mark
    cases listed with
    | none found => exact ⟨(List.cons.inj (closes found (by simpa using solid))).2.symm, rfl⟩
    | last own => exact (none own).elim
    | more own => exact (none own).elim
  | last formed =>
    cases listed with
    | none found => exact absurd mark (not_mark_of_opens sound (mirrored.opens (same ▸ formed)) found)
    | last own ends =>
      obtain ⟨rfl, rfl⟩ := mirrored.reads sound (same ▸ formed) (ends_mark last plus _) own ends
        (by simpa using ⟨plus, solid⟩)
      exact ⟨(List.cons.inj (closes ends (by simpa using solid))).2.symm, rfl⟩
    | more own ends =>
      obtain ⟨rfl, rfl⟩ := mirrored.reads sound (same ▸ formed) (ends_mark last plus _) own ends
        (by simp)
      exact absurd (List.cons.inj (closes ends (by simp))).1 comma
  | more formed _ ih =>
    obtain ⟨ps, qs, rfl, own, others⟩ := List.map_eq_append_iff.1 same
    obtain ⟨gap', qs, rfl, further⟩ := tokens_eq_cons others
    obtain ⟨before, behind⟩ := List.forall_mem_append.1 sound
    obtain ⟨piece, behind⟩ := List.forall_mem_cons.1 behind
    have text : spell (ps ++ ⟨gap', .mark ','⟩ :: qs) ++ (gap ++ close :: more) =
        spell ps ++ (gap' ++ ',' :: (spell qs ++ (gap ++ close :: more))) := by
      simp [spell_append, spell_cons, Token.text]
    rw [text] at listed
    cases listed with
    | none found => exact absurd mark (not_mark_of_opens before (mirrored.opens (own ▸ formed)) found)
    | last first ends =>
      obtain ⟨rfl, rfl⟩ := mirrored.reads before (own ▸ formed) (ends_mark piece (by decide) _) first
        ends (by simpa using ⟨plus, solid⟩)
      have token := token_of_behindGap? piece.silent ends (by simpa using solid)
      exact absurd (List.cons.inj token).1.symm comma
    | more first ends listed =>
      obtain ⟨rfl, rfl⟩ := mirrored.reads before (own ▸ formed) (ends_mark piece (by decide) _) first
        ends (by simp)
      obtain ⟨-, rfl⟩ := List.cons.inj (token_of_behindGap? piece.silent ends (by simp))
      obtain ⟨rfl, rfl⟩ := ih behind listed further
      exact ⟨rfl, rfl⟩

theorem listed_enclosed {opening : Char} {ps : List Piece} {after inner rest : List Char}
    {as : List α} {bs : List β} (mark : opening ∈ marks) (sound : ∀ p ∈ ps, p.Sound shared)
    (enclosed : Enclosed opening close form (tokens ps) as)
    (found : behindGap? false (spell ps ++ after) = some (opening :: inner))
    (listed : Listed close item inner bs rest) : rest = after ∧ bs = as.map f := by
  obtain ⟨own, same, items⟩ := enclosed
  obtain ⟨gap, qs, rfl, inside⟩ := tokens_eq_cons same
  obtain ⟨ps, qs, rfl, rfl, last⟩ := List.map_eq_append_iff.1 inside
  obtain ⟨gap', qs, rfl, none⟩ := tokens_eq_cons last
  obtain rfl := tokens_eq_nil none
  obtain ⟨first, others⟩ := List.forall_mem_cons.1 sound
  obtain ⟨before, behind⟩ := List.forall_mem_append.1 others
  have text : spell (⟨gap, .mark opening⟩ :: (ps ++ [⟨gap', .mark close⟩])) ++ after =
      gap ++ opening :: (spell ps ++ (gap' ++ close :: after)) := by
    simp [Token.text, spell]
  rw [text] at found
  have token := token_of_behindGap? first.silent found (head?_ne_of_mem mark (by decide) inner)
  obtain ⟨-, rfl⟩ := List.cons.inj token
  exact listed_items mirrored closing before (behind _ (List.mem_singleton_self _)) items listed

end

/-! ## Members -/

def contentOf : PropertyValue → Content
  | .text value => .text (unitsOf value)
  | .list values => .list (values.map unitsOf)

def memberOf (p : Property) : List Nat × Content := (unitsOf p.name, contentOf p.value)

theorem not_isNamePart {c : Char} (h : isWhiteSpace c = true) : isNamePart c = false := by
  have beyond : ∀ n ∈ whiteCodes, (idStartRanges.toList ++ idExtraRanges.toList).any
      (fun r => Nat.ble r.1 n && Nat.ble n r.2) = false := by decide +kernel
  have within : ∀ n ∈ whiteCodes, (Char.ofNat n).isAlphanum = false ∧
      Char.ofNat n ∉ ['_', '$', '\u200c', '\u200d'] := by decide
  have outside := beyond c.toNat (mem_whiteCodes h)
  obtain ⟨plain, marks⟩ := within c.toNat (mem_whiteCodes h)
  rw [Char.ofNat_toNat] at plain marks
  rw [List.any_append, ← inRanges_eq, ← inRanges_eq, Bool.or_eq_false_iff] at outside
  simp only [List.mem_cons, List.not_mem_nil, or_false, not_or] at marks
  simp [isNamePart, plain, outside, marks]

theorem not_isNameStart {c : Char} (h : c = '\x85' ∨ isQuote c = true ∨ c ∈ marks) :
    isNameStart c = false := by
  rcases h with rfl | quoted | mark
  · by_contra start
    rw [Bool.not_eq_false] at start
    exact absurd ((not_isNamePart (by decide)).symm.trans (isNamePart_of_isNameStart start)) (by decide)
  · rcases isQuote_cases quoted with rfl | rfl | rfl <;> decide
  · have none : ∀ c ∈ marks, isNameStart c = false := by decide
    exact none c mark

theorem takeWhile_isNamePart {cs rest next : List Char} (word : cs.all isWordPart = true)
    (apart : ∀ d ∈ rest.head?, isNamePart d = false)
    (colon : behindGap? false ((cs ++ rest).dropWhile isNamePart) = some (':' :: next)) :
    (cs ++ rest).takeWhile isNamePart = cs ∧ (cs ++ rest).dropWhile isNamePart = rest := by
  induction cs with
  | nil =>
    cases rest with
    | nil => exact ⟨rfl, rfl⟩
    | cons d rest =>
      have other : ¬isNamePart d = true := by simp [apart d rfl]
      exact ⟨List.takeWhile_cons_of_neg other, List.dropWhile_cons_of_neg other⟩
  | cons d cs ih =>
    rw [List.all_cons, Bool.and_eq_true] at word
    rw [List.cons_append] at colon ⊢
    by_cases part : isNamePart d = true
    · rw [List.dropWhile_cons_of_pos part] at colon
      obtain ⟨before, behind⟩ := ih word.2 colon
      rw [List.takeWhile_cons_of_pos part, List.dropWhile_cons_of_pos part, before, behind]
      exact ⟨rfl, rfl⟩
    · -- The language would find the rest of the word behind the name.
      have plain : d ≠ '/' ∧ d ≠ '<' ∧ d ≠ '-' := by
        refine ⟨?_, ?_, ?_⟩ <;> rintro rfl <;> exact absurd word.1 (by decide)
      obtain ⟨lineEnd, blank⟩ := not_isGap word.1
      rw [List.dropWhile_cons_of_neg part, behindGap?, skipGap_char plain, lineEnd, blank] at colon
      obtain ⟨rfl, -⟩ := List.cons.inj (Option.some.inj colon)
      exact absurd word.1 (by decide)

theorem named_name {gap rest name behind next : List Char} {t : Token} {units : List Nat}
    (sound : Piece.Sound shared ⟨gap, t⟩) (own : Name t name)
    (apart : ∀ d ∈ rest.head?, isNamePart d = false)
    (named : Named (gap ++ (t.text ++ rest)) units behind)
    (colon : behindGap? false behind = some (':' :: next)) : behind = rest ∧ units = unitsOf name := by
  have solid {c : Char} {inner : List Char} (other : c ≠ '\x85') (found : behindGap? false
      (gap ++ (t.text ++ rest)) = some (c :: inner)) : t.text ++ rest = c :: inner :=
    token_of_behindGap? sound.silent found (by simpa using other)
  cases named with
  | @word c _ inner found start =>
    have token := solid (by rintro rfl; exact absurd start (by simp [not_isNameStart])) found
    cases own with
    | word =>
      obtain ⟨d, cs, rfl, -, word⟩ := sound.token
      obtain rfl : d = c := (List.cons.inj token).1
      obtain rfl : cs ++ rest = inner := (List.cons.inj token).2
      obtain ⟨before, behind⟩ := takeWhile_isNamePart word apart colon
      rw [before, behind]
      exact ⟨rfl, rfl⟩
    | literal =>
      obtain ⟨rfl, -⟩ := List.cons.inj token
      exact absurd start (by simp [not_isNameStart, sound.token.1])
  | @text quote _ inner _ _ found quoted cooked =>
    have all : ∀ c ∈ ['\x27', '"'], c ∈ ['\x27', '"', '\x60'] ∧ c ≠ '\x85' ∧ isWordStart c = false := by
      decide
    obtain ⟨quote, white, noWord⟩ := all quote quoted
    cases own with
    | word =>
      obtain ⟨d, cs, rfl, start, -⟩ := sound.token
      obtain ⟨rfl, -⟩ := List.cons.inj (solid white found)
      exact absurd (noWord.symm.trans start) (by decide)
    | literal =>
      obtain ⟨rfl, compares⟩ := literal_cooked shared_within_silent sound found quote cooked
      exact ⟨rfl, compares.shared_eq⟩

theorem valued_assigned {ps : List Piece} {after rest behind : List Char} {value : PropertyValue}
    {content : Content} (sound : ∀ p ∈ ps, p.Sound shared) (assigned : Assigned (tokens ps) value)
    (ends : ∀ more, behindGap? false after ≠ some ('+' :: more))
    (valued : Valued (spell ps ++ after) content rest) (stops : behindGap? false rest = some behind)
    (other : behind.head? ≠ some '+' ∧ behind.head? ≠ some '\x85') :
    rest = after ∧ content = contentOf value := by
  cases assigned with
  | text chain =>
    cases valued with
    | text chained =>
      obtain ⟨rfl, rfl⟩ := mirrored_chain.reads sound chain ends chained stops other
      exact ⟨rfl, rfl⟩
    | list found listed =>
      exact absurd (show '[' ∈ marks by decide) (not_mark_of_opens sound chain.opens found)
  | list enclosed =>
    cases valued with
    | text chained =>
      obtain ⟨c, cs, found, strange, other⟩ := mirrored_chain.begins chained
      obtain rfl := opening_of_enclosed sound enclosed found other
      exact absurd (by decide) strange
    | list found listed =>
      obtain ⟨rfl, rfl⟩ := listed_enclosed mirrored_chain (by decide) (by decide) sound enclosed found
        listed
      exact ⟨rfl, rfl⟩

theorem mirrored_member : Mirrored Declares Membered memberOf where
  opens := Declares.opens
  begins member := by
    obtain ⟨named, -, -⟩ := member
    cases named with
    | word found start =>
      refine ⟨_, _, found, fun mark => ?_, ?_⟩
      · exact absurd start (by simp [not_isNameStart, mark])
      · rintro rfl
        exact absurd start (by simp [not_isNameStart])
    | text found quoted =>
      have outside : ∀ c ∈ ['\x27', '"'], c ∉ marks ∧ c ≠ '\x85' := by decide
      exact ⟨_, _, found, outside _ quoted⟩
  reads := by
    intro ps after rest behind p member sound declared ends membered stops other
    generalize same : tokens ps = ts at declared
    obtain ⟨own, assigned⟩ := declared
    obtain ⟨gap, qs, rfl, further⟩ := tokens_eq_cons same
    obtain ⟨gap', qs, rfl, rfl⟩ := tokens_eq_cons further
    obtain ⟨first, others⟩ := List.forall_mem_cons.1 sound
    obtain ⟨colon, others⟩ := List.forall_mem_cons.1 others
    have apart : ∀ d ∈ (gap' ++ ':' :: (spell qs ++ after)).head?, isNamePart d = false :=
      apart_of_gap colon.gap (fun _ => not_isNamePart) (by decide) (by decide) _
    rw [spell_cons, List.append_assoc, List.append_assoc, spell_cons, List.append_assoc,
      List.append_assoc] at membered
    obtain ⟨named, found, valued⟩ := membered
    obtain ⟨rfl, rfl⟩ := named_name first own apart named found
    obtain ⟨-, rfl⟩ := List.cons.inj (token_of_behindGap? colon.silent found (by simp))
    obtain ⟨rfl, rfl⟩ := valued_assigned others assigned ends valued stops other
    exact ⟨rfl, rfl⟩

/-! ## Keys -/

/-- The comments that a member holds. -/
def commentsOf : Option Content → List (List Nat)
  | none => []
  | some (.text units) => [units]
  | some (.list values) => values

/-- The language makes of a text what a key tells: a text, or an object with a text by the name of `key`
and with comments by the name of `comment`. -/
structure Tells (text : List Char) (key : Key) : Prop where
  plain {units : List Nat} : Evaluates text units →
    ∃ value, key = .plain value ∧ units = unitsOf value.toList
  described {members : List (List Nat × Content)} : Creates text members →
    ∃ value comments, key = .described value comments ∧
      lastNamed? "key".toList members = some (.text (unitsOf value.toList)) ∧
      commentsOf (lastNamed? "comment".toList members) = comments.map fun c => unitsOf c.toList

theorem lastNamed?_members (name : String) (properties : List Property) :
    lastNamed? name.toList (properties.map memberOf) = (lastValue? name properties).map contentOf := by
  have same (p : Property) : (memberOf p).1 = unitsOf name.toList ↔ p.name = name.toList :=
    ⟨fun h => unitsOf_injective h, fun h => congrArg unitsOf h⟩
  have filtered : (properties.map memberOf).filter (·.1 == unitsOf name.toList) =
      (properties.filter (·.name == name.toList)).map memberOf := by
    rw [List.filter_map]
    congr 1
    refine List.filter_congr fun p _ => ?_
    rw [Bool.eq_iff_iff]
    simpa using same p
  rw [lastNamed?, lastValue?, filtered, List.getLast?_map, Option.map_map, Option.map_map]
  rfl

theorem commentsOf_content (value : PropertyValue) :
    commentsOf (some (contentOf value)) = value.texts.map fun c => unitsOf c.toList := by
  cases value with
  | text value => simp [contentOf, commentsOf, PropertyValue.texts]
  | list values => simp [contentOf, commentsOf, PropertyValue.texts]

theorem tells_of_isKey {text : List Char} {key : Key} (read : IsKey shared text key) :
    Tells text key := by
  obtain ⟨_, ⟨ps, last, rfl, sound, ending, rfl⟩, denotes⟩ := read
  have ends := ends_ending (ending.within (r := shared) (s := silent) fun _ _ _ own => own)
  constructor
  · rintro units ⟨rest, chained, stops⟩
    cases denotes with
    | plain chain =>
      obtain ⟨-, same⟩ := mirrored_chain.reads sound chain ends chained stops (by simp)
      exact ⟨_, rfl, by rw [same, String.toList_ofList]⟩
    | described enclosed =>
      obtain ⟨c, cs, found, strange, other⟩ := mirrored_chain.begins chained
      obtain rfl := opening_of_enclosed sound enclosed found other
      exact absurd (by decide) strange
  · rintro members ⟨inner, rest, found, listed, stops⟩
    cases denotes with
    | plain chain =>
      exact absurd (show '{' ∈ marks by decide) (not_mark_of_opens sound chain.opens found)
    | @described properties _ enclosed _ _ described =>
      obtain ⟨-, rfl⟩ := listed_enclosed mirrored_member (by decide) (by decide) sound enclosed found
        listed
      rw [describedKey] at described
      split at described
      next value last =>
        obtain rfl := Except.ok.inj described
        refine ⟨_, _, rfl, ?_, ?_⟩
        · rw [lastNamed?_members, last, String.toList_ofList]
          rfl
        · rw [lastNamed?_members]
          cases lastValue? "comment" properties with
          | none => rfl
          | some comments => exact commentsOf_content comments
      · cases described

/-! ## Texts without other line ends -/

/-- A line end besides the line feed. -/
def isOtherLineEnd (c : Char) : Bool := c == '\r' || c == '\u2028' || c == '\u2029'

theorem silent_of_plain {text : List Char} (inline : '\n' ∉ text)
    (plain : ∀ c ∈ text, isOtherLineEnd c = false) : Silent text := by
  have skips (cs : List Char) (pos : Nat) (inline : ∀ c ∈ cs, isLineEnd c = false) :
      (skipGap false false .lineComment cs pos).map (·.rest) = some [] := by
    induction cs generalizing pos with
    | nil => rfl
    | cons c cs ih =>
      obtain ⟨own, others⟩ := List.forall_mem_cons.1 inline
      rw [skipGap, own]
      exact ih _ others
  refine skips text 0 fun c mem => ?_
  have other := plain c mem
  have feed : c ≠ '\n' := by
    rintro rfl
    exact inline mem
  simp only [isOtherLineEnd, Bool.or_eq_false_iff, beq_eq_false_iff_ne] at other
  simp [isLineEnd, other, feed]

theorem accepted_within_shared {text : List Char} (plain : ∀ c ∈ text, isOtherLineEnd c = false) :
    accepted.Within shared text where
  signed _ := id
  comment inner inside inline _ := silent_of_plain inline fun c mem => plain c (inside.subset mem)
  raw c mem quote _ := by
    rintro ⟨-, rfl⟩
    exact absurd (plain _ mem) (by decide)
  escaped c mem _ := by
    refine ⟨?_, ?_⟩ <;> rintro rfl <;> exact absurd (plain _ mem) (by decide)

theorem shared_within_accepted (text : List Char) : shared.Within accepted text :=
  ⟨fun _ => id, fun _ _ _ _ => trivial, fun _ _ _ _ => trivial, fun _ _ _ => trivial⟩

theorem silent_within_accepted (text : List Char) : silent.Within accepted text :=
  ⟨fun _ => id, fun _ _ _ _ => trivial, fun _ _ _ => id, fun _ _ => id⟩

/-- As far as the language finds nothing in the comments of a value, it has that value exactly if it reads
the texts alike. Then a key tells what the language has. Both hold of whatever is read from a text without
line ends besides the line feed. -/
theorem evaluated_eq_iff (text : String) :
    (∀ value, IsValue silent text.toList value.toList → parseValue text = .ok value ∧
      ∀ units, Evaluates text.toList units →
        (units = unitsOf value.toList ↔ IsValue shared text.toList value.toList)) ∧
    (∀ key, IsKey shared text.toList key → parseKey text = .ok key ∧ Tells text.toList key) ∧
    ((∀ c ∈ text.toList, isOtherLineEnd c = false) →
      (∀ value units, parseValue text = .ok value → Evaluates text.toList units →
        units = unitsOf value.toList) ∧
      ∀ key, parseKey text = .ok key → Tells text.toList key) := by
  refine ⟨fun value read => ⟨?_, fun units => evaluated_iff read⟩,
    fun key read => ⟨?_, tells_of_isKey read⟩, fun plain => ⟨fun value units read evaluates => ?_,
      fun key read => ?_⟩⟩
  · have accepted := parseValue_of_isValue (read.within (silent_within_accepted _))
    rwa [String.ofList_toList] at accepted
  · exact parseKey_of_isKey (read.within (shared_within_accepted _))
  · have alike := (isValue_of_parseValue read).within (accepted_within_shared plain)
    exact (evaluated_iff (alike.within (shared_within_silent _)) evaluates).2 alike
  · exact tells_of_isKey ((isKey_of_parseKey read).within (accepted_within_shared plain))

theorem evaluated_eq_iff_line :
    (parseValue "`a\nb`" = .ok "a\nb" ∧ Evaluates "`a\nb`".toList [97, 10, 98] ∧
      [97, 10, 98] = unitsOf "a\nb".toList) ∧
    (parseKey "\x7bkey:'a'\x7d" = .ok (.described "a" []) ∧
      Creates "\x7bkey:'a'\x7d".toList [(unitsOf "key".toList, .text [97])] ∧
      Tells "\x7bkey:'a'\x7d".toList (.described "a" [])) := by
  have body : Body shared '\x60' ['a', '\n', 'b'] ['a', '\n', 'b'] := by
    refine .raw ?_ ?_ ?_ ?_ ?_ (.raw ?_ ?_ ?_ ?_ ?_ (.raw ?_ ?_ ?_ ?_ ?_ .nil)) <;> simp [shared]
  have value : IsValue shared "`a\nb`".toList "a\nb".toList := isValue_literal rfl body (.gap .nil)
  have evaluates : Evaluates "`a\nb`".toList [97, 10, 98] := by
    refine ⟨[], .one rfl (by decide) (.raw ?_ ?_ ?_ ?_ ?_ (.raw ?_ ?_ ?_ ?_ ?_
      (.raw ?_ ?_ ?_ ?_ ?_ .close))), rfl⟩ <;> decide
  have key : IsKey shared "\x7bkey:'a'\x7d".toList (.described "a" []) := by
    have name : Body shared '\x27' ['a'] ['a'] := by
      refine .raw ?_ ?_ ?_ ?_ ?_ .nil <;> simp [shared]
    refine ⟨_, ⟨[⟨[], .mark '\x7b'⟩, ⟨[], .word ['k', 'e', 'y']⟩, ⟨[], .mark ':'⟩,
      ⟨[], .literal '\x27' ['a'] ['a']⟩, ⟨[], .mark '\x7d'⟩], [], rfl, ?_, .gap .nil, rfl⟩,
      .described ⟨_, rfl, .last (.property .word (.text .one))⟩ ?_ ?_ rfl⟩
    · simp only [List.forall_mem_cons, List.not_mem_nil, false_implies, implies_true, and_true]
      have mark {c : Char} (own : c ∈ marks) : Piece.Sound shared ⟨[], .mark c⟩ := ⟨.nil, own⟩
      exact ⟨mark (by decide), ⟨.nil, 'k', ['e', 'y'], rfl, by decide, by decide⟩, mark (by decide),
        ⟨.nil, rfl, name⟩, mark (by decide)⟩
    · exact ⟨_, List.mem_singleton_self _, rfl⟩
    · exact fun p mem _ => ⟨['a'], by rw [List.mem_singleton.1 mem]⟩
  have creates : Creates "\x7bkey:'a'\x7d".toList [(unitsOf "key".toList, .text [97])] := by
    have cooked : Cooked '\x27' ['a', '\x27', '}'] [97] ['}'] := by
      refine .raw ?_ ?_ ?_ ?_ ?_ .close <;> decide
    have found : behindGap? false "key:'a'\x7d".toList = some ('k' :: "ey:'a'\x7d".toList) := rfl
    have name := Named.word found (by decide)
    exact ⟨_, [], rfl, .last (.member name rfl (.text (.one rfl (by decide) cooked))) rfl, rfl⟩
  obtain ⟨read, same⟩ := (evaluated_eq_iff "`a\nb`").1 "a\nb" (value.within (shared_within_silent _))
  obtain ⟨read', tells⟩ := (evaluated_eq_iff "\x7bkey:'a'\x7d").2.1 _ key
  exact ⟨⟨read, evaluates, (same _ evaluates).2 value⟩, read', creates, tells⟩

/-- The line ends on which they differ: one that is raw in a template, one behind a backslash, and one in a
comment. -/
theorem line_ends_apart :
    (parseValue "`a\r\nb`" = .ok "a\r\nb" ∧ Evaluates "`a\r\nb`".toList (unitsOf "a\nb".toList)) ∧
    (parseValue "'a\\\u2028b'" = .ok "a\u2028b" ∧
      Evaluates "'a\\\u2028b'".toList (unitsOf "ab".toList)) ∧
    (parseValue "'a'//\r+'b'" = .ok "a" ∧ Evaluates "'a'//\r+'b'".toList (unitsOf "ab".toList)) := by
  have letter {cs value : List Char} {quote c : Char} (plain : c ∉ [quote, '\\', '$', '\n', '\r'])
      (whole : Body accepted quote cs value) : Body accepted quote (c :: cs) (c :: value) := by
    simp only [List.mem_cons, List.not_mem_nil, or_false, not_or] at plain
    obtain ⟨other, backslash, dollar, feed⟩ := plain
    exact .raw other backslash (fun _ => feed) (fun _ same => absurd same dollar) trivial whole
  have read {text value : String} (h : IsValue accepted text.toList value.toList) :
      parseValue text = .ok value := by
    rw [parseValue_of_isValue h, String.ofList_toList]
  have template : Body accepted '\x60' ['a', '\r', '\n', 'b'] ['a', '\r', '\n', 'b'] := by
    refine letter ?_ (.raw ?_ ?_ ?_ ?_ trivial (.raw ?_ ?_ ?_ ?_ trivial (letter ?_ .nil))) <;> decide
  have continued : Body accepted '\x27' ['a', '\\', '\u2028', 'b'] ['a', '\u2028', 'b'] := by
    refine letter ?_ (.escape (.other ?_ ?_ trivial) (letter ?_ .nil)) <;> decide
  have first : Body accepted '\x27' ['a'] ['a'] := letter (by decide) .nil
  refine ⟨⟨read (isValue_literal rfl template (.gap .nil)), ?_⟩,
    ⟨read (isValue_literal rfl continued (.gap .nil)), ?_⟩,
    read (isValue_literal rfl first (.comment .nil (by decide) trivial)), ?_⟩
  · refine ⟨[], .one rfl (by decide) (.raw ?_ ?_ ?_ ?_ ?_ (.carriageReturnLineFeed rfl
      (.raw ?_ ?_ ?_ ?_ ?_ .close))), rfl⟩ <;> decide
  · have behind : Cooked '\x27' ['b', '\x27'] [98] [] := by
      refine .raw ?_ ?_ ?_ ?_ ?_ .close <;> decide
    have ends : escaped? ['\u2028', 'b', '\x27'] = some ([], ['b', '\x27']) := rfl
    have text : "'a\\\u2028b'".toList = ['\x27', 'a', '\\', '\u2028', 'b', '\x27'] := by decide
    rw [text]
    have further := Cooked.escape ends behind
    refine ⟨[], .one rfl (by decide) (.raw ?_ ?_ ?_ ?_ ?_ further), rfl⟩ <;> decide
  · refine ⟨[], .more rfl (by decide) (.raw ?_ ?_ ?_ ?_ ?_ .close) rfl (.one rfl (by decide)
      (.raw ?_ ?_ ?_ ?_ ?_ .close)), rfl⟩ <;> decide

end BundlePrep.Message.Grammar
