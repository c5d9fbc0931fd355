import BundlePrep.Proofs.Message.Acceptance
import BundlePrep.Proofs.Message.Offsets

/-!
# Arguments are read to their end

The machines for texts, lists and objects follow their readers, so the machine for an argument comes to
an end on every text and gives what is read from it.
-/

set_option autoImplicit false

namespace BundlePrep.Message

open BundlePrep.Text Fault.locate

namespace Bytewise

/-! ## Texts and values -/

section

variable {text cs : List Char}

theorem map_map {γ δ ε : Type} (f : γ → δ) (g : δ → ε) (r : Except Fault γ) :
    (r.map f).map g = r.map fun c => g (f c) := by
  cases r <;> rfl

theorem map_id {γ δ : Type} (r : Except Fault (γ × δ)) : r.map (fun read => (read.1, read.2)) = r := by
  cases r <;> rfl

theorem map_bind {γ δ ε : Type} (f : γ → Except Fault δ) (g : δ → ε) (r : Except Fault γ) :
    (r >>= f).map g = r >>= fun c => (f c).map g := by
  cases r <;> rfl

theorem appended_append (a b : List Char) (r : Except Fault (Reading (List Char))) :
    (r.map fun read => (b ++ read.1, read.2)).map (fun read => (a ++ read.1, read.2)) =
      r.map fun read => (a ++ b ++ read.1, read.2) := by
  cases r with
  | error f => rfl
  | ok read => simp [Except.map]

theorem follows_bodyFrom (quote : Char) (start out : List Char) (place : cs <:+ text) :
    Follows text cs (bodyFrom (offset text start) quote out)
      ((readBody quote start cs).map fun read => (out ++ read.1, read.2)) := by
  fun_induction readBody quote start cs generalizing out with
  | case1 =>
    rw [bodyFrom_eq]
    exact (bind_of_ok bump_end).trans rfl
  | case2 cs =>
    rw [bodyFrom_eq]
    refine .bump place ?_
    simp [Except.map, follows_pure]
  | case3 cs none other =>
    have escaped := follows_escape place
    rw [none] at escaped
    rw [bodyFrom_eq]
    refine .bump place ?_
    dsimp only
    rw [if_neg other, if_pos rfl]
    exact bind_of_error escaped
  | case4 cs out' rest esc other ih =>
    have escaped := follows_escape place
    rw [esc] at escaped
    have behind := @ih (out ++ out') (escaped.1.trans ((List.suffix_cons ..).trans place))
    rw [bodyFrom_eq]
    refine .bump place ?_
    dsimp only
    rw [if_neg other, if_pos rfl]
    rw [appended_append]
    exact .next escaped.2 escaped.1 behind
  | case5 c cs other backslash interpolation =>
    rw [bodyFrom_eq]
    refine .bump place ?_
    dsimp only
    rw [if_neg other, if_neg backslash]
    refine .peek ((List.suffix_cons ..).trans place) ?_
    rw [if_pos interpolation]
    rfl
  | case6 c cs other backslash interpolation line =>
    rw [bodyFrom_eq]
    refine .bump place ?_
    dsimp only
    rw [if_neg other, if_neg backslash]
    refine .peek ((List.suffix_cons ..).trans place) ?_
    rw [if_neg interpolation, if_pos line]
    rfl
  | case7 c cs other backslash interpolation line ih =>
    have behind := @ih (out ++ [c]) ((List.suffix_cons ..).trans place)
    rw [bodyFrom_eq]
    refine .bump place ?_
    dsimp only
    rw [if_neg other, if_neg backslash]
    refine .peek ((List.suffix_cons ..).trans place) ?_
    rw [if_neg interpolation, if_neg line]
    exact (appended_append out [c] _).symm ▸ behind

theorem follows_body {quote : Char} {start : List Char} (place : cs <:+ text) :
    Follows text cs (bodyFrom (offset text start) quote []) (readBody quote start cs) := by
  have body := follows_bodyFrom quote start [] place
  cases read : readBody quote start cs <;> simpa [read, Except.map] using body

theorem follows_text (place : cs <:+ text) : Follows text cs Bytewise.text (readText cs) := by
  refine .next (a := offset text cs) rfl List.suffix_rfl (.peek place ?_)
  cases cs with
  | nil => exact follows_unexpected place
  | cons c cs =>
    rw [readText]
    dsimp only [List.head?_cons]
    split
    next => exact .bump place (follows_body ((List.suffix_cons ..).trans place))
    next => exact follows_unexpected place

theorem follows_nextText (place : cs <:+ text) : Follows text cs nextText (readNextText cs) :=
  (follows_skip place).then fun _ _ inner => follows_text (inner.trans place)

theorem follows_chainFrom {acc : List Char} (place : cs <:+ text) :
    Follows text cs (chainFrom acc) (readChain acc cs) := by
  have front := follows_skip place
  rw [chainFrom_eq]
  fun_induction readChain acc cs with
  | case1 acc cs f skipped =>
    rw [skipped] at front
    exact bind_of_error front
  | case2 acc cs rest skipped f read =>
    rw [skipped] at front
    have inner := front.1.trans place
    have behind := follows_nextText ((List.suffix_cons ..).trans inner)
    rw [read] at behind
    refine .next front.2 front.1 (.peek inner ?_)
    rw [if_pos List.head?_cons]
    exact .bump inner (bind_of_error behind)
  | case3 acc cs rest skipped more rest' read ih =>
    rw [skipped] at front
    have inner := front.1.trans place
    have behind := follows_nextText ((List.suffix_cons ..).trans inner)
    rw [read] at behind
    refine .next front.2 front.1 (.peek inner ?_)
    rw [if_pos List.head?_cons]
    refine .bump inner (.next behind.2 behind.1 ?_)
    have place' := behind.1.trans ((List.suffix_cons ..).trans inner)
    rw [chainFrom_eq]
    exact ih place' (follows_skip place')
  | case4 acc cs rest skipped =>
    rw [‹skip cs = _›] at front
    have inner := front.1.trans place
    refine .next front.2 front.1 (.peek inner ?_)
    rw [if_neg]
    · exact follows_pure _
    · intro plus
      obtain ⟨behind, rfl⟩ := List.head?_eq_some_iff.1 plus
      exact skipped behind rfl

theorem follows_value (place : cs <:+ text) : Follows text cs value (readValue cs) :=
  (follows_nextText place).bind fun _ _ _ inner => follows_chainFrom (inner.trans place)

end

/-! ## Lists and objects -/

section

variable {text : List Char}

section

variable {α σ : Type} {close : Char} {item : List Char → Except Fault (Reading α)}
variable {shorter : ∀ {cs rest : List Char} {a : α}, item cs = .ok (a, rest) → rest.length < cs.length}
variable {machine : σ → Machine σ} {add : σ → α → σ}

theorem follows_behindItem {found : σ} {cs first behind rest : List Char} {a : α}
    {r : Except Fault (Reading σ)} (place : cs <:+ text) (skipped : skip cs = .ok first)
    (more : ¬first.head? = some close)
    (one : Follows text first (machine found) (.ok (add found a, behind)))
    (ends : skip behind = .ok rest)
    (next : rest <:+ text → Follows text rest (do
      if (← peek) = some ',' then
        let _ ← bump
        itemsFrom close machine (add found a)
      else if (← peek) = some close then itemsFrom close machine (add found a)
      else unexpected) r) : Follows text cs (itemsFrom close machine found) r := by
  have front := follows_skip place
  rw [skipped] at front
  have inner := front.1.trans place
  have gap := follows_skip (one.1.trans inner)
  rw [ends] at gap
  rw [itemsFrom_eq]
  refine .next front.2 front.1 (.peek inner ?_)
  rw [if_neg more]
  exact .next one.2 one.1 (.next gap.2 gap.1 (next (gap.1.trans (one.1.trans inner))))

theorem follows_itemsFrom
    (each : ∀ found {cs}, cs <:+ text →
      Follows text cs (machine found) ((item cs).map fun read => (add found read.1, read.2)))
    (own : ∀ cs, skip (close :: cs) = .ok (close :: cs)) (found : σ) {cs : List Char}
    (place : cs <:+ text) :
    Follows text cs (itemsFrom close machine found)
      ((readItems close item shorter cs).map fun read => (read.1.foldl add found, read.2)) := by
  have closed (found : σ) {cs rest : List Char} (place : cs <:+ text)
      (skipped : skip cs = .ok (close :: rest)) :
      Follows text cs (itemsFrom close machine found) (.ok (found, rest)) := by
    have front := follows_skip place
    rw [skipped] at front
    rw [itemsFrom_eq]
    refine .next front.2 front.1 (.peek (front.1.trans place) ?_)
    rw [if_pos List.head?_cons]
    exact .bump (front.1.trans place) (follows_pure _)
  have front := follows_skip place
  fun_induction readItems close item shorter cs generalizing found with
  | case1 cs f skipped =>
    rw [skipped] at front
    rw [itemsFrom_eq]
    exact bind_of_error front
  | case2 cs first skipped closes =>
    obtain ⟨rest, rfl⟩ := List.head?_eq_some_iff.1 closes
    exact closed found place skipped
  | case3 cs first skipped more f read =>
    rw [skipped] at front
    have inner := front.1.trans place
    have one := each found inner
    rw [read] at one
    rw [itemsFrom_eq]
    refine .next front.2 front.1 (.peek inner ?_)
    rw [if_neg more]
    exact bind_of_error one
  | case4 cs first skipped more a behind read f ends =>
    rw [skipped] at front
    have inner := front.1.trans place
    have one := each found inner
    rw [read] at one
    have gap := follows_skip (one.1.trans inner)
    rw [ends] at gap
    rw [itemsFrom_eq]
    refine .next front.2 front.1 (.peek inner ?_)
    rw [if_neg more]
    exact .next one.2 one.1 (bind_of_error gap)
  | case5 cs first skipped more a behind read ends =>
    rw [skipped] at front
    have one := each found (front.1.trans place)
    rw [read] at one
    refine follows_behindItem place skipped more one ends fun place => .peek place (.peek place ?_)
    exact follows_unexpected place
  | case6 cs first skipped more a behind read rest ends ih =>
    rw [skipped] at front
    have one := each found (front.1.trans place)
    rw [read] at one
    refine follows_behindItem place skipped more one ends fun place => .peek place ?_
    rw [if_pos List.head?_cons]
    have inner := (List.suffix_cons ..).trans place
    have others := ih (add found a) inner (follows_skip inner)
    rw [map_map]
    exact .bump place others
  | case7 cs first skipped more a behind read rest ends =>
    rw [skipped] at front
    have one := each found (front.1.trans place)
    rw [read] at one
    refine follows_behindItem place skipped more one ends fun place => .peek place ?_
    rw [if_neg (by simpa)]
    refine .peek place ?_
    rw [if_pos List.head?_cons]
    exact closed (add found a) place (own rest)
  | case8 cs first skipped more a behind read c rest ends comma other =>
    rw [skipped] at front
    have one := each found (front.1.trans place)
    rw [read] at one
    refine follows_behindItem place skipped more one ends fun place => .peek place ?_
    rw [if_neg (by simpa using comma)]
    refine .peek place ?_
    rw [if_neg (by simpa using other)]
    exact follows_unexpected place

end

variable {cs : List Char}

theorem skip_mark {c : Char} (h : c ∈ Grammar.marks) (cs : List Char) :
    skip (c :: cs) = .ok (c :: cs) := Grammar.skip_token (r := Grammar.accepted) (t := .mark c) h cs

theorem follows_list (place : cs <:+ text) : Follows text cs list (readList cs) := by
  refine (follows_expect '[' place).then fun rest _ inner => ?_
  have items : Follows text rest (itemsFrom ']' (fun items => return items ++ [← value]) [])
      ((readItems ']' readValue length_readValue rest).map fun read =>
        (read.1.foldl (fun items item => items ++ [item]) [], read.2)) := follows_itemsFrom
    (fun items _ place => (follows_value place).map (items ++ [·]))
    (skip_mark (by decide)) [] (inner.trans place)
  have snoc (found items : List (List Char)) :
      items.foldl (fun items item => items ++ [item]) found = found ++ items := by
    induction items generalizing found with
    | nil => simp
    | cons item items ih => simp [ih]
  simp only [snoc, List.nil_append] at items
  exact (map_id _).subst items

theorem follows_skipWord (place : cs <:+ text) :
    Follows text cs skipWord (.ok ((), cs.dropWhile isWordPart)) := by
  induction cs with
  | nil =>
    rw [skipWord_eq]
    exact .peek place (follows_pure _)
  | cons c cs ih =>
    rw [skipWord_eq]
    refine .peek place ?_
    dsimp only [List.head?_cons]
    split
    next part =>
      rw [List.dropWhile_cons_of_pos part]
      exact .bump place (ih ((List.suffix_cons ..).trans place))
    next part =>
      rw [List.dropWhile_cons_of_neg part]
      exact follows_pure _

theorem follows_name (place : cs <:+ text) : Follows text cs name (readName cs) := by
  refine .peek place ?_
  cases cs with
  | nil => exact follows_unexpected place
  | cons c cs =>
    rw [readName]
    dsimp only [List.head?_cons]
    split
    next plain =>
      have quoted : isQuote c = true := by rcases plain with rfl | rfl <;> rfl
      have own : readText (c :: cs) = readBody c (c :: cs) cs := if_pos quoted
      exact own ▸ follows_text place
    next =>
      split
      next start =>
        have part : isWordPart c = true := by
          simp only [isWordStart, isWordPart] at start ⊢
          grind
        have word := follows_skipWord place
        have parts := List.takeWhile_append_dropWhile (p := isWordPart) (l := cs)
        rw [List.dropWhile_cons_of_pos part] at word
        refine .next (a := offset text (c :: cs)) rfl List.suffix_rfl ?_
        refine .next word.2 word.1 ?_
        generalize cs.takeWhile isWordPart = front at parts ⊢
        generalize cs.dropWhile isWordPart = rest at parts ⊢
        subst parts
        refine .next (a := text) rfl List.suffix_rfl ?_
        refine .next (a := offset text rest) rfl List.suffix_rfl ?_
        have whole := offset_append (c :: front) place
        have cut : slice? text (offset text (c :: (front ++ rest))) (offset text rest) =
            some (c :: front) := by
          rw [whole]
          refine (slice?_offset place _).trans ?_
          rw [← List.cons_append, splitAt?_append]
          rfl
        rw [cut]
        exact follows_pure _
      next => exact follows_unexpected place

theorem follows_propertyValue (place : cs <:+ text) :
    Follows text cs propertyValue (readPropertyValue cs) := by
  refine (follows_skip place).then fun rest _ inner => .peek (inner.trans place) ?_
  dsimp only
  split
  · exact (follows_list (inner.trans place)).bind fun _ _ _ _ => follows_pure _
  · exact (follows_value (inner.trans place)).bind fun _ _ _ _ => follows_pure _

def Described.add (found : Described) (property : Property) : Described :=
  if property.name = "key".toList then
    { found with key := match property.value with
      | .text key => some key
      | .list _ => none }
  else if property.name = "comment".toList then
    { found with comments := match property.value with
      | .text comment => [comment]
      | .list comments => comments }
  else found

theorem Described.put_eq (found : Described) (name : List Char) (value : PropertyValue) :
    found.put name value = if (Property.mk name value).isListedKey = true then
      refuse .missingKey else pure (found.add ⟨name, value⟩) := by
  unfold Described.put Described.add Property.isListedKey
  generalize "key".toList = key
  generalize "comment".toList = comment
  by_cases isKey : name = key
  · cases value <;> simp [isKey]
  · by_cases isComment : name = comment
    · subst isComment
      cases value <;> simp [isKey]
    · cases value <;> simp [isKey, isComment]

theorem follows_property (found : Described) (place : cs <:+ text) :
    Follows text cs (property found) ((readProperty cs).map fun read => (found.add read.1, read.2)) := by
  rw [readProperty, map_bind]
  refine (follows_name place).bind fun name behind _ inner => ?_
  dsimp only
  rw [map_bind]
  refine (follows_expect ':' (inner.trans place)).then fun rest _ inner' => ?_
  rw [map_bind]
  refine (follows_propertyValue (inner'.trans (inner.trans place))).bind fun value _ _ _ => ?_
  rw [found.put_eq]
  dsimp only
  split
  · exact follows_refuse .missingKey
  · exact follows_pure _

theorem lastValue?_snoc (name : String) (properties : List Property) (p : Property) :
    lastValue? name (properties ++ [p]) =
      if p.name = name.toList then some p.value else lastValue? name properties := by
  rw [lastValue?, List.filter_append]
  split
  next own => simp [own]
  next other =>
    have none : [p].filter (·.name == name.toList) = [] := by simp [other]
    rw [none, List.append_nil]
    rfl

theorem key_foldl_add (properties : List Property) :
    (properties.foldl Described.add {}).key = (lastValue? "key" properties).bind fun value =>
      match value with
      | .text key => some key
      | .list _ => none := by
  induction properties using List.reverseRecOn with
  | nil => rfl
  | append_singleton properties p ih =>
    rw [List.foldl_concat, lastValue?_snoc, Described.add]
    split
    next => rfl
    next => 
      rw [← ih]
      split <;> rfl

theorem comments_foldl_add (properties : List Property) :
    (properties.foldl Described.add {}).comments.map String.ofList =
      (lastValue? "comment" properties).elim [] PropertyValue.texts := by
  induction properties using List.reverseRecOn with
  | nil => rfl
  | append_singleton properties p ih =>
    rw [List.foldl_concat, lastValue?_snoc, Described.add]
    have apart : "key".toList ≠ "comment".toList := by decide
    split
    next key => 
      rw [if_neg (key ▸ apart), ← ih]
    next => 
      split
      next => cases p.value <;> rfl
      next => exact ih

theorem described_foldl_add (properties : List Property) :
    describedKey properties = match (properties.foldl Described.add {}).key with
      | some key => .ok (.described (String.ofList key)
          ((properties.foldl Described.add {}).comments.map String.ofList))
      | none => .error .missingKey := by
  rw [describedKey, key_foldl_add, comments_foldl_add]
  rcases lastValue? "key" properties with _ | _ | _ <;> rfl

theorem follows_object (place : cs <:+ text) : Follows text cs object (readObject cs) := by
  refine (follows_expect '{' place).then fun rest _ inner => ?_
  have items : Follows text rest (itemsFrom '}' property {})
      ((readItems '}' readProperty length_readProperty rest).map fun read =>
        (read.1.foldl Described.add {}, read.2)) := follows_itemsFrom
    (fun found _ place => follows_property found place) (skip_mark (by decide)) {}
    (inner.trans place)
  have whole : (readItems '}' readProperty length_readProperty rest >>= fun read =>
      describedKey read.1 >>= fun key => pure (key, read.2)) =
      (readItems '}' readProperty length_readProperty rest).map
        (fun read => (read.1.foldl Described.add {}, read.2)) >>= fun read =>
          match read.1.key with
          | some key => .ok (.described (String.ofList key) (read.1.comments.map String.ofList), read.2)
          | none => .error .missingKey := by
    cases readItems '}' readProperty length_readProperty rest with
    | error f => rfl
    | ok read =>
      show describedKey read.1 >>= _ = _
      rw [described_foldl_add]
      show _ = match (read.1.foldl Described.add {}).key with | some key => _ | none => _
      cases (read.1.foldl Described.add {}).key <;> rfl
  refine whole ▸ items.bind fun found behind _ _ => ?_
  dsimp only
  cases found.key with
  | some key => exact follows_pure _
  | none => exact follows_refuse .missingKey

/-! ## Arguments -/

theorem follows_key (place : cs <:+ text) : Follows text cs Bytewise.key (readKey cs) := by
  refine (follows_skip place).then fun rest _ inner => .peek (inner.trans place) ?_
  dsimp only
  split
  · exact follows_object (inner.trans place)
  · exact (follows_value (inner.trans place)).bind fun _ _ _ _ => follows_pure _

theorem follows_keyArgument :
    Follows text text keyArgument ((readKey text >>= finish).map (·, [])) := by
  rw [map_bind]
  exact (follows_key List.suffix_rfl).bind fun key _ _ inner => follows_finish key inner

theorem follows_valueArgument :
    Follows text text valueArgument
      (((readValue text >>= finish).map String.ofList).map (·, [])) := by
  rw [map_map, map_bind]
  refine (follows_value List.suffix_rfl).bind fun value rest _ inner => ?_
  have ends := follows_finish (String.ofList value) inner
  have whole : (finish (value, rest)).map (fun value => (String.ofList value, ([] : List Char))) =
      (finish (String.ofList value, rest)).map (·, []) := by
    unfold finish
    cases skip rest with
    | error f => rfl
    | ok behind => cases behind <;> rfl
  rw [whole]
  exact ends

end

theorem run_of_follows {α : Type} {machine : Machine α} {text : String} {r : Except Fault α}
    (h : Follows text.toList text.toList machine (r.map (·, []))) :
    run machine text = some ((r.mapError (·.locate text.toList)).mapError .fault) := by
  have start : offset text.toList text.toList = 0 := Nat.sub_self _
  unfold run
  cases r with
  | ok a =>
    have same := h.2
    rw [start] at same
    show Option.map _ (machine text.toList 0) = _
    rw [same]
    rfl
  | error f =>
    have same : machine text.toList (offset text.toList text.toList) = _ := h
    rw [start] at same
    show Option.map _ (machine text.toList 0) = _
    rw [same]
    rfl

theorem run_keyArgument (text : String) :
    run keyArgument text = some ((parseKey text).mapError .fault) :=
  run_of_follows follows_keyArgument

theorem run_valueArgument (text : String) :
    run valueArgument text = some ((parseValue text).mapError .fault) :=
  run_of_follows follows_valueArgument

end Bytewise

/-! ## Reported offsets -/

/-- What an error says of a text: what is unexpected stands at its offset behind whole tokens, a text
without an end or with an interpolation begins there, and an escape that is none stands there behind
a sound part of a text. -/
def LiteralError.Located (text : List Char) : LiteralError → Prop
  | .unexpected found offset => ∃ front rest, text = front ++ found :: rest ∧ Grammar.Row front ∧
      offset = byteLength front
  | .unterminated offset => ∃ front quote rest, text = front ++ quote :: rest ∧ Grammar.Row front ∧
      isQuote quote = true ∧ offset = byteLength front ∧
      readText (quote :: rest) = .error (.unterminated (quote :: rest))
  | .interpolated offset => ∃ front rest, text = front ++ '\x60' :: rest ∧ Grammar.Row front ∧
      offset = byteLength front ∧
      readText ('\x60' :: rest) = .error (.interpolated ('\x60' :: rest))
  | .invalidEscape offset => ∃ front quote body value rest,
      text = front ++ quote :: (body ++ '\\' :: rest) ∧ Grammar.Row front ∧ isQuote quote = true ∧
      Grammar.Body Grammar.accepted quote body value ∧ offset = byteLength (front ++ quote :: body) ∧
      readEscape rest = none
  | .unexpectedEnd | .missingKey => True

namespace Grammar

theorem offset_suffix (front rest : List Char) : offset (front ++ rest) rest = byteLength front := by
  rw [offset, byteLength_append, Nat.add_sub_cancel_right]

theorem located_of_stands {cs : List Char} {f : Fault} (h : Stands cs f) : (f.locate cs).Located cs := by
  cases f with
  | unexpected rest =>
    obtain ⟨front, rfl, row⟩ := h
    cases rest with
    | nil => exact True.intro
    | cons c rest => exact ⟨front, rest, rfl, row (by simp), offset_suffix front _⟩
  | unterminated rest =>
    obtain ⟨more, ⟨front, rfl, row⟩, fails⟩ := h
    obtain ⟨quote, rest, rfl⟩ := List.exists_cons_of_ne_nil more
    refine ⟨front, quote, rest, rfl, row more, ?_, offset_suffix front _, fails⟩
    by_contra plain
    rw [readText, if_neg plain] at fails
    cases fails
  | interpolated rest =>
    obtain ⟨more, ⟨front, rfl, row⟩, fails⟩ := h
    obtain ⟨quote, rest, rfl⟩ := List.exists_cons_of_ne_nil more
    obtain rfl : quote = '\x60' := by
      rw [readText] at fails
      split at fails
      next => exact quote_of_interpolated fails
      next => cases fails
    exact ⟨front, rest, rfl, row more, offset_suffix front _, fails⟩
  | invalidEscape rest =>
    obtain ⟨quote, body, value, behind, ⟨front, rfl, row⟩, quoted, whole, rfl, fails⟩ := h
    refine ⟨front, quote, body, value, behind, rfl, row (by simp), quoted, whole, ?_, fails⟩
    have := offset_suffix (front ++ quote :: body) ('\\' :: behind)
    simpa [Fault.locate] using this
  | missingKey => exact True.intro

theorem located_of_tracked {α : Type} {text : List Char} {rest : α → List Char} {r : Except Fault α}
    {e : LiteralError} (h : Tracked rest text r) (fails : r.mapError (·.locate text) = .error e) :
    e.Located text := by
  cases r with
  | ok a => cases fails
  | error f =>
    obtain rfl := Except.error.inj fails
    exact located_of_stands h

end Grammar

/-- The readers of arguments come to an end on every text and cut it only between characters, as the
machines that read by byte offsets show, and each error they report lies where it says. -/
theorem arguments_read_between_characters (text : String) :
    Bytewise.run Bytewise.keyArgument text = some ((parseKey text).mapError .fault) ∧
      Bytewise.run Bytewise.valueArgument text = some ((parseValue text).mapError .fault) ∧
      (∀ e, parseKey text = .error e → e.Located text.toList) ∧
      ∀ e, parseValue text = .error e → e.Located text.toList := by
  refine ⟨Bytewise.run_keyArgument text, Bytewise.run_valueArgument text, fun e fails => ?_,
    fun e fails => ?_⟩
  · have tracked := (Grammar.tracked_key text.toList).bind fun read _ => Grammar.tracked_finish read
    exact Grammar.located_of_tracked tracked fails
  · have tracked := (Grammar.tracked_value text.toList).bind fun read _ => Grammar.tracked_finish read
    have written : Grammar.Tracked (fun _ => []) text.toList _ :=
      tracked.map String.ofList fun _ => rfl
    exact Grammar.located_of_tracked written fails

end BundlePrep.Message
