import BundlePrep.Proofs.Message.Escapes
import BundlePrep.Proofs.Message.Readback

/-!
# Readings are derivations

What is read from an argument is written there as the accepted grammar tells. Each reader leaves a rest
that begins like the text behind its last token, but for white space and comments.
-/

set_option autoImplicit false

namespace BundlePrep.Message.Grammar

open BundlePrep.Text

/-! ## White space and comments -/

theorem Gap.append {r : Rules} {a b : List Char} (ha : Gap r a) (hb : Gap r b) : Gap r (a ++ b) := by
  induction ha with
  | nil => exact hb
  | blank white _ ih => exact .blank white ih
  | line inline allowed _ ih =>
    rw [List.cons_append, List.cons_append, List.append_assoc, List.cons_append]
    exact .line inline allowed ih
  | block inside _ ih =>
    rw [List.cons_append, List.cons_append, List.append_assoc, List.cons_append, List.cons_append]
    exact .block inside ih

structure Skipped (passed rest : List Char) : Prop where
  ending : Ending accepted passed
  gap : rest ≠ [] → Gap accepted passed

theorem Skipped.of_gap {passed rest : List Char} (h : Gap accepted passed) : Skipped passed rest :=
  ⟨.gap h, fun _ => h⟩

theorem Ending.behind {gap cs : List Char} (h : Gap accepted gap) (ending : Ending accepted cs) :
    Ending accepted (gap ++ cs) := by
  cases ending with
  | gap more => exact .gap (h.append more)
  | comment more inline allowed =>
    rw [← List.append_assoc]
    exact .comment (h.append more) inline allowed

theorem Skipped.behind {gap passed rest : List Char} (h : Gap accepted gap)
    (skipped : Skipped passed rest) : Skipped (gap ++ passed) rest :=
  ⟨skipped.ending.behind h, fun more => h.append (skipped.gap more)⟩

def Passes : Between → List Char → List Char → Prop
  | .tokens, passed, rest => Skipped passed rest
  | .lineComment, passed, rest => ('\n' ∉ passed ∧ rest = []) ∨
      ∃ text more, passed = text ++ '\n' :: more ∧ '\n' ∉ text ∧ Skipped more rest
  | .blockComment _, passed, rest =>
      ∃ text more, passed = text ++ '*' :: '/' :: more ∧ ¬['*', '/'] <:+: text ∧ Skipped more rest

theorem skipFrom_passes {b : Between} {cs rest : List Char} (h : skipFrom b cs = .ok rest) :
    ∃ passed, cs = passed ++ rest ∧ Passes b passed rest ∧ skip rest = .ok rest := by
  fun_induction skipFrom b cs with
  | case1 => cases h
  | case2 b open_ =>
    obtain rfl := Except.ok.inj h
    refine ⟨[], rfl, ?_, rfl⟩
    cases b with
    | tokens => exact .of_gap .nil
    | lineComment => exact .inl ⟨by simp, rfl⟩
    | blockComment start => exact absurd rfl (open_ start)
  | case3 start cs ih =>
    obtain ⟨passed, rfl, skipped, stops⟩ := ih h
    exact ⟨'*' :: '/' :: passed, rfl, ⟨[], passed, rfl, by simp, skipped⟩, stops⟩
  | case4 start c cs other ih =>
    obtain ⟨passed, rfl, ⟨text, more, rfl, inside, skipped⟩, stops⟩ := ih h
    refine ⟨c :: (text ++ '*' :: '/' :: more), by simp, ⟨c :: text, more, rfl, ?_, skipped⟩, stops⟩
    rw [List.infix_cons_iff, not_or]
    refine ⟨fun begins => ?_, inside⟩
    obtain ⟨rfl, slash⟩ := List.cons_prefix_cons.1 begins
    obtain ⟨text, rfl⟩ := slash
    exact other _ rfl rfl
  | case5 c cs ih =>
    obtain ⟨passed, rfl, passes, stops⟩ := ih h
    refine ⟨c :: passed, rfl, ?_, stops⟩
    split at passes
    next ends =>
      subst ends
      exact .inr ⟨[], passed, rfl, by simp, passes⟩
    next inline =>
      rcases passes with ⟨plain, rfl⟩ | ⟨text, more, rfl, plain, skipped⟩
      · exact .inl ⟨by simp [plain, Ne.symm inline], rfl⟩
      · exact .inr ⟨c :: text, more, rfl, by simp [plain, Ne.symm inline], skipped⟩
  | case6 cs ih =>
    obtain ⟨passed, rfl, passes, stops⟩ := ih h
    refine ⟨'/' :: '/' :: passed, rfl, ?_, stops⟩
    rcases passes with ⟨plain, rfl⟩ | ⟨text, more, rfl, plain, skipped⟩
    · exact ⟨.comment .nil plain trivial, fun more => absurd rfl more⟩
    · have line := Gap.line plain trivial (Gap.nil (r := accepted))
      have whole := skipped.behind line
      rwa [List.cons_append, List.cons_append, List.append_assoc, List.singleton_append] at whole
  | case7 cs ih =>
    obtain ⟨passed, rfl, ⟨text, more, rfl, inside, skipped⟩, stops⟩ := ih h
    refine ⟨'/' :: '*' :: (text ++ '*' :: '/' :: more), by simp, ?_, stops⟩
    have block := Gap.block inside (Gap.nil (r := accepted))
    have whole := skipped.behind block
    rwa [List.cons_append, List.cons_append, List.append_assoc, List.cons_append,
      List.singleton_append] at whole
  | case8 c cs _ _ white ih =>
    obtain ⟨passed, rfl, skipped, stops⟩ := ih h
    exact ⟨c :: passed, rfl, skipped.behind (.blank white .nil), stops⟩
  | case9 c cs line block solid =>
    obtain rfl := Except.ok.inj h
    refine ⟨[], rfl, .of_gap .nil, ?_⟩
    rw [skip_char, if_neg solid]
    · rintro rfl head
      obtain ⟨more, rfl⟩ := List.head?_eq_some_iff.1 head
      exact line more rfl rfl
    · rintro rfl head
      obtain ⟨more, rfl⟩ := List.head?_eq_some_iff.1 head
      exact block more rfl rfl

theorem skip_skipped {cs rest : List Char} (h : skip cs = .ok rest) :
    ∃ passed, cs = passed ++ rest ∧ Skipped passed rest ∧ skip rest = .ok rest :=
  skipFrom_passes h

theorem gap_of_skip {c : Char} {cs rest : List Char} (h : skip cs = .ok (c :: rest)) :
    ∃ gap, cs = gap ++ c :: rest ∧ Gap accepted gap := by
  obtain ⟨passed, rfl, skipped, -⟩ := skip_skipped h
  exact ⟨passed, rfl, skipped.gap (by simp)⟩

theorem gap_of_expect {c : Char} {cs rest : List Char} (h : expect c cs = .ok rest) :
    ∃ gap, cs = gap ++ c :: rest ∧ Gap accepted gap := by
  unfold expect at h
  cases skipped : skip cs with
  | error e => simp [skipped, bind, Except.bind] at h
  | ok cs' =>
    simp only [skipped, bind, Except.bind] at h
    split at h
    · split at h
      next same =>
        obtain rfl := Except.ok.inj h
        rw [same] at skipped
        exact gap_of_skip skipped
      · cases h
    · cases h

/-! ## Texts -/

theorem body_of_readBody {quote : Char} {start cs out rest : List Char}
    (h : readBody quote start cs = .ok (out, rest)) :
    ∃ body, cs = body ++ quote :: rest ∧ Body accepted quote body out := by
  fun_induction readBody quote start cs generalizing out rest with
  | case1 => cases h
  | case2 =>
    obtain ⟨rfl, rfl⟩ := Prod.mk.inj (Except.ok.inj h)
    exact ⟨[], rfl, .nil⟩
  | case3 => cases h
  | case4 cs out' rest' esc _ ih =>
    cases found : readBody quote start rest' with
    | error e => simp [found, Except.map] at h
    | ok more =>
      obtain ⟨more, behind⟩ := more
      obtain ⟨body, rfl, whole⟩ := ih found
      obtain ⟨e, rfl, escape⟩ := escape_of_readEscape esc
      simp only [found, Except.map, Except.ok.injEq, Prod.mk.injEq] at h
      obtain ⟨rfl, rfl⟩ := h
      exact ⟨'\\' :: (e ++ body), by simp, .escape escape.shorten whole⟩
  | case5 => cases h
  | case6 => cases h
  | case7 c cs other backslash interpolation line ih =>
    cases found : readBody quote start cs with
    | error e => simp [found, Except.map] at h
    | ok more =>
      obtain ⟨more, behind⟩ := more
      obtain ⟨body, rfl, whole⟩ := ih found
      simp only [found, Except.map, Except.ok.injEq, Prod.mk.injEq] at h
      obtain ⟨rfl, rfl⟩ := h
      refine ⟨c :: body, rfl, .raw other backslash (fun plain => ?_) (fun back dollar open_ => ?_)
        trivial whole⟩
      · simpa [plain] using line
      · exact interpolation ⟨back, dollar, by rw [List.head?_append, open_]; rfl⟩

/-! ## Rows of tokens -/

theorem spell_cons (p : Piece) (ps : List Piece) :
    spell (p :: ps) = p.gap ++ (p.token.text ++ spell ps) := by
  simp [spell]

theorem spell_append (ps qs : List Piece) : spell (ps ++ qs) = spell ps ++ spell qs := by
  simp [spell]

def Reads {α : Type} (form : List Token → α → Prop) (cs : List Char) (a : α) (rest : List Char) :
    Prop :=
  ∃ ps after, cs = spell ps ++ after ∧ (∀ p ∈ ps, p.Sound accepted) ∧ form (tokens ps) a ∧
    skip after = skip rest

theorem Reads.imp {α β : Type} {form : List Token → α → Prop} {form' : List Token → β → Prop}
    {cs rest : List Char} {a : α} {b : β} (h : Reads form cs a rest)
    (imp : ∀ ts, form ts a → form' ts b) : Reads form' cs b rest := by
  obtain ⟨ps, after, whole, sound, formed, behind⟩ := h
  exact ⟨ps, after, whole, sound, imp _ formed, behind⟩

theorem Reads.behind {α : Type} {form : List Token → α → Prop} {gap cs rest : List Char} {a : α}
    (h : Gap accepted gap) (nonempty : ¬form [] a) (reads : Reads form cs a rest) :
    Reads form (gap ++ cs) a rest := by
  obtain ⟨ps, after, rfl, sound, formed, behind⟩ := reads
  cases ps with
  | nil => exact absurd formed nonempty
  | cons p ps =>
    obtain ⟨own, others⟩ := List.forall_mem_cons.1 sound
    refine ⟨⟨gap ++ p.gap, p.token⟩ :: ps, after, ?_, ?_, formed, behind⟩
    · simp only [spell_cons, List.append_assoc]
    · exact List.forall_mem_cons.2 ⟨⟨h.append own.gap, own.token⟩, others⟩

theorem Chain.ne_nil {value : List Char} : ¬Chain [] value := by
  intro h
  cases h

theorem Assigned.ne_nil {value : PropertyValue} : ¬Assigned [] value := by
  intro h
  cases h with
  | text chain => exact Chain.ne_nil chain
  | list enclosed =>
    obtain ⟨inner, same, -⟩ := enclosed
    cases same

theorem Declares.ne_nil {p : Property} : ¬Declares [] p := by
  intro h
  cases h

theorem Denotes.ne_nil {key : Key} : ¬Denotes [] key := by
  intro h
  cases h with
  | plain chain => exact Chain.ne_nil chain
  | described enclosed =>
    obtain ⟨inner, same, -⟩ := enclosed
    cases same

theorem literal_of_readNextText {cs out rest : List Char} (h : readNextText cs = .ok (out, rest)) :
    ∃ gap quote body, cs = gap ++ ((Token.literal quote body out).text ++ rest) ∧
      Piece.Sound accepted ⟨gap, .literal quote body out⟩ := by
  unfold readNextText at h
  cases skipped : skip cs with
  | error e => simp [skipped, bind, Except.bind] at h
  | ok cs' =>
    simp only [skipped, bind, Except.bind] at h
    unfold readText at h
    split at h
    · cases h
    next quote cs' =>
      split at h
      next quoted =>
        obtain ⟨body, rfl, whole⟩ := body_of_readBody h
        obtain ⟨gap, rfl, sound⟩ := gap_of_skip skipped
        exact ⟨gap, quote, body, by simp [Token.text], sound, quoted, whole⟩
      · cases h

theorem chain_of_readChain {acc cs out rest : List Char} (h : readChain acc cs = .ok (out, rest)) :
    ∃ ps after value, cs = spell ps ++ after ∧ (∀ p ∈ ps, p.Sound accepted) ∧ out = acc ++ value ∧
      skip after = .ok rest ∧
      (ps = [] ∧ value = [] ∨ ∃ ts, tokens ps = .mark '+' :: ts ∧ Chain ts value) := by
  fun_induction readChain acc cs with
  | case1 => cases h
  | case2 => cases h
  | case3 acc cs rest' skipped more behind next ih =>
    obtain ⟨ps, after, value, rfl, sound, rfl, ends, shape⟩ := ih h
    obtain ⟨gap, rfl, own⟩ := gap_of_skip skipped
    obtain ⟨gap', quote, body, rfl, literal⟩ := literal_of_readNextText next
    refine ⟨⟨gap, .mark '+'⟩ :: ⟨gap', .literal quote body more⟩ :: ps, after, more ++ value, ?_,
      ?_, by simp, ends, .inr ⟨.literal quote body more :: tokens ps, rfl, ?_⟩⟩
    · simp [spell_cons, Token.text]
    · refine List.forall_mem_cons.2 ⟨⟨own, ?_⟩, List.forall_mem_cons.2 ⟨literal, sound⟩⟩
      exact List.mem_cons_self ..
    · rcases shape with ⟨rfl, rfl⟩ | ⟨ts, same, chain⟩
      · rw [List.append_nil]
        exact .one
      · rw [same]
        exact .more chain
  | case4 acc cs rest' skipped =>
    obtain ⟨rfl, rfl⟩ := Prod.mk.inj (Except.ok.inj h)
    exact ⟨[], cs, [], rfl, by simp, by simp, ‹_›, .inl ⟨rfl, rfl⟩⟩

theorem reads_value {cs value rest : List Char} (h : readValue cs = .ok (value, rest)) :
    Reads Chain cs value rest ∧ skip rest = .ok rest := by
  unfold readValue at h
  cases found : readNextText cs with
  | error e => simp [found, bind, Except.bind] at h
  | ok first =>
    obtain ⟨first, behind⟩ := first
    simp only [found, bind, Except.bind] at h
    obtain ⟨gap, quote, body, rfl, literal⟩ := literal_of_readNextText found
    obtain ⟨ps, after, more, rfl, sound, rfl, ends, shape⟩ := chain_of_readChain h
    obtain ⟨-, -, -, stops⟩ := skip_skipped ends
    refine ⟨⟨⟨gap, .literal quote body first⟩ :: ps, after, ?_,
      List.forall_mem_cons.2 ⟨literal, sound⟩, ?_, ends.trans stops.symm⟩, stops⟩
    · simp [spell_cons]
    · rcases shape with ⟨rfl, rfl⟩ | ⟨ts, same, chain⟩
      · rw [List.append_nil]
        exact .one
      · rw [tokens, List.map_cons, show ps.map Piece.token = _ from same]
        exact .more chain

/-! ## Lists and objects -/

section

variable {α : Type} {close : Char} {item : List Char → Except Fault (Reading α)}
  {shorter : ∀ {cs rest : List Char} {a : α}, item cs = .ok (a, rest) → rest.length < cs.length}
  {form : List Token → α → Prop}

theorem reads_items {cs rest : List Char} {as : List α} (nonempty : ∀ a, ¬form [] a)
    (reads : ∀ {cs rest : List Char} {a : α}, item cs = .ok (a, rest) → Reads form cs a rest)
    (h : readItems close item shorter cs = .ok (as, rest)) :
    ∃ ps gap, cs = spell ps ++ (gap ++ close :: rest) ∧ Gap accepted gap ∧
      (∀ p ∈ ps, p.Sound accepted) ∧ Items form (tokens ps) as := by
  -- The item behind a gap, and the gap behind the item with the character that ends it.
  have one {cs first behind rest : List Char} {a : α} {c : Char} (skipped : skip cs = .ok first)
      (read : item first = .ok (a, behind)) (ends : skip behind = .ok (c :: rest)) :
      ∃ ps gap, cs = spell ps ++ (gap ++ c :: rest) ∧ Gap accepted gap ∧
        (∀ p ∈ ps, p.Sound accepted) ∧ form (tokens ps) a := by
    obtain ⟨passed, rfl, whole, -⟩ := skip_skipped skipped
    have more : first ≠ [] := by
      rintro rfl
      exact absurd (shorter read) (by simp)
    obtain ⟨ps, after, same, sound, formed, level⟩ :=
      (reads read).behind (whole.gap more) (nonempty a)
    obtain ⟨gap, rfl, own⟩ := gap_of_skip (level.trans ends)
    exact ⟨ps, gap, same, own, sound, formed⟩
  fun_induction readItems close item shorter cs generalizing as rest with
  | case1 => cases h
  | case2 cs first before closes =>
    obtain ⟨rfl, rfl⟩ := Prod.mk.inj (Except.ok.inj h)
    obtain ⟨rest, rfl⟩ := List.head?_eq_some_iff.1 closes
    obtain ⟨gap, rfl, own⟩ := gap_of_skip before
    exact ⟨[], gap, rfl, own, by simp, .nil⟩
  | case3 => cases h
  | case4 => cases h
  | case5 => cases h
  | case6 cs first before _ a behind read rest' ends ih =>
    cases found : readItems close item shorter rest' with
    | error e => simp [found, Except.map] at h
    | ok more =>
      obtain ⟨more, rest''⟩ := more
      simp only [found, Except.map, Except.ok.injEq, Prod.mk.injEq] at h
      obtain ⟨rfl, rfl⟩ := h
      obtain ⟨ps, gap, rfl, own, sound, formed⟩ := one before read ends
      obtain ⟨ps', gap', rfl, own', sound', items⟩ := ih found
      refine ⟨ps ++ ⟨gap, .mark ','⟩ :: ps', gap', ?_, own', ?_, ?_⟩
      · simp [spell_append, spell_cons, Token.text]
      · refine List.forall_mem_append.2 ⟨sound, List.forall_mem_cons.2 ⟨⟨own, ?_⟩, sound'⟩⟩
        exact List.mem_cons_of_mem _ (List.mem_cons_self ..)
      · rw [tokens, List.map_append]
        exact .more formed items
  | case7 cs first before _ a behind read rest' ends =>
    obtain ⟨rfl, rfl⟩ := Prod.mk.inj (Except.ok.inj h)
    obtain ⟨ps, gap, rfl, own, sound, formed⟩ := one before read ends
    exact ⟨ps, gap, rfl, own, sound, .last formed⟩
  | case8 => cases h

theorem reads_enclosed {opening : Char} {cs inner rest : List Char} {as : List α}
    (own : opening ∈ marks ∧ close ∈ marks) (nonempty : ∀ a, ¬form [] a)
    (reads : ∀ {cs rest : List Char} {a : α}, item cs = .ok (a, rest) → Reads form cs a rest)
    (opens : expect opening cs = .ok inner)
    (h : readItems close item shorter inner = .ok (as, rest)) :
    Reads (Enclosed opening close form) cs as rest := by
  obtain ⟨gap, rfl, before⟩ := gap_of_expect opens
  obtain ⟨ps, gap', rfl, behind, sound, items⟩ := reads_items nonempty reads h
  refine ⟨⟨gap, .mark opening⟩ :: (ps ++ [⟨gap', .mark close⟩]), rest, ?_, ?_,
    ⟨tokens ps, ?_, items⟩, rfl⟩
  · simp [Token.text, spell]
  · exact List.forall_mem_cons.2 ⟨⟨before, own.1⟩,
      List.forall_mem_append.2 ⟨sound, List.forall_mem_singleton.2 ⟨behind, own.2⟩⟩⟩
  · simp [tokens]

end

theorem reads_list {cs rest : List Char} {values : List (List Char)}
    (h : readList cs = .ok (values, rest)) : Reads (Enclosed '[' ']' Chain) cs values rest := by
  unfold readList at h
  cases opens : expect '[' cs with
  | error e => simp [opens, bind, Except.bind] at h
  | ok inner =>
    simp only [opens, bind, Except.bind] at h
    exact reads_enclosed (by decide) (fun _ => Chain.ne_nil) (fun read => (reads_value read).1) opens h

theorem name_of_readName {cs name rest : List Char} (h : readName cs = .ok (name, rest)) :
    ∃ t, cs = Token.text t ++ rest ∧ t.Sound accepted ∧ Name t name := by
  unfold readName at h
  split at h
  · cases h
  next c cs =>
    split at h
    next plain =>
      obtain ⟨body, rfl, whole⟩ := body_of_readBody h
      have quoted : isQuote c = true := by rcases plain with rfl | rfl <;> rfl
      refine ⟨.literal c body name, by simp [Token.text], ⟨quoted, whole⟩, .literal ?_⟩
      rcases plain with rfl | rfl <;> decide
    · split at h
      next start =>
        obtain ⟨rfl, rfl⟩ := Prod.mk.inj (Except.ok.inj h)
        refine ⟨.word (c :: cs.takeWhile isWordPart), by simp [Token.text], ⟨c, _, rfl, start, ?_⟩,
          .word⟩
        exact List.all_takeWhile
      · cases h

theorem reads_assigned {cs rest : List Char} {value : PropertyValue}
    (h : readPropertyValue cs = .ok (value, rest)) : Reads Assigned cs value rest := by
  unfold readPropertyValue at h
  cases skipped : skip cs with
  | error e => simp [skipped, bind, Except.bind] at h
  | ok first =>
    simp only [skipped, bind, Except.bind] at h
    obtain ⟨passed, rfl, whole, -⟩ := skip_skipped skipped
    split at h
    · cases listed : readList first with
      | error e => simp [listed] at h
      | ok r =>
        obtain ⟨values, behind⟩ := r
        simp only [listed, pure, Except.pure, Except.ok.injEq, Prod.mk.injEq] at h
        obtain ⟨rfl, rfl⟩ := h
        have more : first ≠ [] := List.ne_nil_of_length_pos (Nat.zero_lt_of_lt (length_readList listed))
        exact ((reads_list listed).imp fun _ => Assigned.list).behind (whole.gap more) Assigned.ne_nil
    · cases valued : readValue first with
      | error e => simp [valued] at h
      | ok r =>
        obtain ⟨text, behind⟩ := r
        simp only [valued, pure, Except.pure, Except.ok.injEq, Prod.mk.injEq] at h
        obtain ⟨rfl, rfl⟩ := h
        have more : first ≠ [] := List.ne_nil_of_length_pos (Nat.zero_lt_of_lt (length_readValue valued))
        exact ((reads_value valued).1.imp fun _ => Assigned.text).behind (whole.gap more)
          Assigned.ne_nil

theorem reads_property {cs rest : List Char} {p : Property} (h : readProperty cs = .ok (p, rest)) :
    Reads (fun ts p => Declares ts p ∧ p.isListedKey = false) cs p rest := by
  unfold readProperty at h
  cases named : readName cs with
  | error e => simp [named, bind, Except.bind] at h
  | ok n =>
    obtain ⟨name, behind⟩ := n
    simp only [named, bind, Except.bind] at h
    cases found : expect ':' behind with
    | error e => simp [found] at h
    | ok inner =>
      simp only [found] at h
      cases valued : readPropertyValue inner with
      | error e => simp [valued] at h
      | ok v =>
        obtain ⟨value, behind'⟩ := v
        simp only [valued] at h
        split at h
        · cases h
        next single =>
          simp only [pure, Except.pure, Except.ok.injEq, Prod.mk.injEq] at h
          obtain ⟨rfl, rfl⟩ := h
          obtain ⟨t, rfl, sound, own⟩ := name_of_readName named
          obtain ⟨gap, rfl, colon⟩ := gap_of_expect found
          obtain ⟨ps, after, rfl, sound', assigned, level⟩ := reads_assigned valued
          refine ⟨⟨[], t⟩ :: ⟨gap, .mark ':'⟩ :: ps, after, ?_, ?_,
            ⟨.property own assigned, by simpa using single⟩, level⟩
          · simp [spell_cons, Token.text]
          · exact List.forall_mem_cons.2 ⟨⟨.nil, sound⟩,
              List.forall_mem_cons.2 ⟨⟨colon, List.mem_of_elem_eq_true rfl⟩, sound'⟩⟩

/-! ## Keys and values -/

theorem Items.separate {α : Type} {form : List Token → α → Prop} {p : α → Prop} {ts : List Token}
    {as : List α} (h : Items (fun ts a => form ts a ∧ p a) ts as) :
    Items form ts as ∧ ∀ a ∈ as, p a := by
  induction h with
  | nil => exact ⟨.nil, by simp⟩
  | last own => exact ⟨.last own.1, by simpa using own.2⟩
  | more own _ ih => exact ⟨.more own.1 ih.1, List.forall_mem_cons.2 ⟨own.2, ih.2⟩⟩

theorem exists_of_describedKey {properties : List Property} {key : Key}
    (h : describedKey properties = .ok key) : ∃ p ∈ properties, p.name = "key".toList := by
  unfold describedKey at h
  split at h
  next found =>
    obtain ⟨p, last, -⟩ := Option.map_eq_some_iff.1 found
    have mem := List.mem_filter.1 (List.mem_of_getLast? last)
    exact ⟨p, mem.1, by simpa using mem.2⟩
  · cases h

theorem reads_object {cs rest : List Char} {key : Key} (h : readObject cs = .ok (key, rest)) :
    Reads Denotes cs key rest := by
  unfold readObject at h
  cases opens : expect '{' cs with
  | error e => simp [opens, bind, Except.bind] at h
  | ok inner =>
    simp only [opens, bind, Except.bind] at h
    cases found : readItems '}' readProperty length_readProperty inner with
    | error e => simp [found] at h
    | ok r =>
      obtain ⟨properties, behind⟩ := r
      simp only [found] at h
      cases described : describedKey properties with
      | error e => simp [described] at h
      | ok key' =>
        simp only [described, pure, Except.pure, Except.ok.injEq, Prod.mk.injEq] at h
        obtain ⟨rfl, rfl⟩ := h
        refine (reads_enclosed (by decide) (fun _ none => Declares.ne_nil none.1) reads_property
          opens found).imp ?_
        rintro ts ⟨inner, rfl, items⟩
        obtain ⟨items, single⟩ := items.separate
        refine .described ⟨inner, rfl, items⟩ ?_ (fun p mem named => ?_) described
        · exact exists_of_describedKey described
        · cases assigned : p.value with
          | text value => exact ⟨value, rfl⟩
          | list values =>
            have listed := single p mem
            simp [Property.isListedKey, named, assigned] at listed

theorem reads_key {cs rest : List Char} {key : Key} (h : readKey cs = .ok (key, rest)) :
    Reads Denotes cs key rest := by
  unfold readKey at h
  cases skipped : skip cs with
  | error e => simp [skipped, bind, Except.bind] at h
  | ok first =>
    simp only [skipped, bind, Except.bind] at h
    obtain ⟨passed, rfl, whole, -⟩ := skip_skipped skipped
    split at h
    next opens =>
      have more : first ≠ [] := by
        rintro rfl
        cases opens
      exact (reads_object h).behind (whole.gap more) Denotes.ne_nil
    · cases valued : readValue first with
      | error e => simp [valued] at h
      | ok r =>
        obtain ⟨value, behind⟩ := r
        simp only [valued, pure, Except.pure, Except.ok.injEq, Prod.mk.injEq] at h
        obtain ⟨rfl, rfl⟩ := h
        have more : first ≠ [] :=
          List.ne_nil_of_length_pos (Nat.zero_lt_of_lt (length_readValue valued))
        exact ((reads_value valued).1.imp fun _ => Denotes.plain).behind (whole.gap more)
          Denotes.ne_nil

theorem writes_of_finish {α : Type} {form : List Token → α → Prop} {text rest : List Char} {a b : α}
    (reads : Reads form text a rest) (h : finish (a, rest) = .ok b) :
    ∃ ts, Writes accepted text ts ∧ form ts b := by
  obtain ⟨ps, after, rfl, sound, formed, level⟩ := reads
  unfold finish at h
  cases skipped : skip rest with
  | error e => simp [skipped, bind, Except.bind] at h
  | ok end_ =>
    simp only [skipped, bind, Except.bind] at h
    split at h
    · obtain rfl := Except.ok.inj h
      obtain ⟨passed, same, whole, -⟩ := skip_skipped (level.trans skipped)
      rw [List.append_nil] at same
      subst same
      exact ⟨tokens ps, ⟨ps, after, rfl, sound, whole.ending, rfl⟩, formed⟩
    · cases h

theorem isValue_of_parseValue {text value : String} (h : parseValue text = .ok value) :
    IsValue accepted text.toList value.toList := by
  unfold parseValue at h
  cases read : readValue text.toList with
  | error e => simp [read, bind, Except.bind, Except.map, Except.mapError] at h
  | ok r =>
    obtain ⟨out, rest⟩ := r
    cases finished : finish (out, rest) with
    | error e => simp [read, finished, bind, Except.bind, Except.map, Except.mapError] at h
    | ok out' =>
      simp only [read, finished, bind, Except.bind, Except.map, Except.mapError,
        Except.ok.injEq] at h
      rw [← h, String.toList_ofList]
      exact writes_of_finish (reads_value read).1 finished

theorem isKey_of_parseKey {text : String} {key : Key} (h : parseKey text = .ok key) :
    IsKey accepted text.toList key := by
  unfold parseKey at h
  cases read : readKey text.toList with
  | error e => simp [read, bind, Except.bind, Except.mapError] at h
  | ok r =>
    obtain ⟨out, rest⟩ := r
    cases finished : finish (out, rest) with
    | error e => simp [read, finished, bind, Except.bind, Except.mapError] at h
    | ok out' =>
      simp only [read, finished, bind, Except.bind, Except.mapError, Except.ok.injEq] at h
      rw [← h]
      exact writes_of_finish (reads_key read) finished

end BundlePrep.Message.Grammar
