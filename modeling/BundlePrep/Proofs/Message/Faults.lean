import BundlePrep.Proofs.Message.Derivation

/-!
# Where faults lie

A reader stops behind whole tokens, white space and comments. What it refuses stands there, or inside of
the text that begins there: a text without an end, or with an interpolation, is refused at its opening
quote, and an escape at its backslash.
-/

set_option autoImplicit false

namespace BundlePrep.Message.Grammar

open BundlePrep.Text

/-! ## What stands in front -/

/-- Whole tokens, with white space and comments between and behind them. -/
def Row (front : List Char) : Prop :=
  ∃ ps gap, front = spell ps ++ gap ∧ (∀ p ∈ ps, p.Sound accepted) ∧ Gap accepted gap

theorem row_of_gap {gap : List Char} (h : Gap accepted gap) : Row gap := ⟨[], gap, rfl, by simp, h⟩

theorem row_of_piece {p : Piece} (h : p.Sound accepted) : Row (p.gap ++ p.token.text) :=
  ⟨[p], [], by simp [spell], by simpa using h, .nil⟩

theorem Row.append {a b : List Char} (ha : Row a) (hb : Row b) : Row (a ++ b) := by
  obtain ⟨ps, gap, rfl, sound, own⟩ := ha
  obtain ⟨qs, gap', rfl, sound', own'⟩ := hb
  cases qs with
  | nil => exact ⟨ps, gap ++ gap', by simp [spell], sound, own.append own'⟩
  | cons q qs =>
    obtain ⟨first, others⟩ := List.forall_mem_cons.1 sound'
    refine ⟨ps ++ ⟨gap ++ q.gap, q.token⟩ :: qs, gap', by simp [spell_append, spell_cons], ?_, own'⟩
    exact List.forall_mem_append.2
      ⟨sound, List.forall_mem_cons.2 ⟨⟨own.append first.gap, first.token⟩, others⟩⟩

def Leaves (cs rest : List Char) : Prop := ∃ front, cs = front ++ rest ∧ (rest ≠ [] → Row front)

theorem Leaves.trans {cs rest rest' : List Char} (h : Leaves cs rest) (more : Leaves rest rest') :
    Leaves cs rest' := by
  obtain ⟨front, rfl, row⟩ := h
  obtain ⟨front', rfl, row'⟩ := more
  refine ⟨front ++ front', by simp, fun nonempty => (row ?_).append (row' nonempty)⟩
  simp [nonempty]

theorem leaves_of_piece {p : Piece} (h : p.Sound accepted) (rest : List Char) :
    Leaves (p.gap ++ (p.token.text ++ rest)) rest :=
  ⟨p.gap ++ p.token.text, by simp, fun _ => row_of_piece h⟩

theorem leaves_mark {c : Char} (h : c ∈ marks) (rest : List Char) : Leaves (c :: rest) rest :=
  leaves_of_piece (p := ⟨[], .mark c⟩) ⟨.nil, h⟩ rest

/-! ## Faults -/

def Stands (cs : List Char) : Fault → Prop
  | .unexpected rest => Leaves cs rest
  | .unterminated rest => rest ≠ [] ∧ Leaves cs rest ∧ readText rest = .error (.unterminated rest)
  | .interpolated rest => rest ≠ [] ∧ Leaves cs rest ∧ readText rest = .error (.interpolated rest)
  | .invalidEscape rest => ∃ quote body value behind, Leaves cs (quote :: (body ++ rest)) ∧
      isQuote quote = true ∧ Body accepted quote body value ∧ rest = '\\' :: behind ∧
      readEscape behind = none
  | .missingKey => True

theorem Stands.behind {cs rest : List Char} {f : Fault} (h : Leaves cs rest) (stands : Stands rest f) :
    Stands cs f := by
  cases f with
  | unexpected rest' => exact h.trans stands
  | unterminated rest' => exact ⟨stands.1, h.trans stands.2.1, stands.2.2⟩
  | interpolated rest' => exact ⟨stands.1, h.trans stands.2.1, stands.2.2⟩
  | invalidEscape rest' =>
    obtain ⟨quote, body, value, behind, leaves, others⟩ := stands
    exact ⟨quote, body, value, behind, h.trans leaves, others⟩
  | missingKey => trivial

def Tracked {α : Type} (rest : α → List Char) (cs : List Char) : Except Fault α → Prop
  | .ok a => Leaves cs (rest a)
  | .error f => Stands cs f

section

variable {α β : Type} {rest : α → List Char} {rest' : β → List Char} {cs : List Char}

theorem Tracked.behind {r : Except Fault α} {mid : List Char} (h : Leaves cs mid)
    (tracked : Tracked rest mid r) : Tracked rest cs r := by
  cases r with
  | error f => exact Stands.behind h tracked
  | ok a => exact Leaves.trans h tracked

theorem Tracked.bind {r : Except Fault α} {next : α → Except Fault β} (first : Tracked rest cs r)
    (more : ∀ a, r = .ok a → Tracked rest' (rest a) (next a)) : Tracked rest' cs (r >>= next) := by
  cases r with
  | error f => exact first
  | ok a => exact (more a rfl).behind first

theorem Tracked.map {r : Except Fault α} (h : Tracked rest cs r) (f : α → β)
    (same : ∀ a, rest' (f a) = rest a) : Tracked rest' cs (r.map f) := by
  cases r with
  | error e => exact h
  | ok a =>
    show Leaves cs (rest' (f a))
    rw [same]
    exact h

theorem tracked_here {a : α} (h : rest a = cs) : Tracked rest cs (.ok a) := by
  subst h
  exact ⟨[], rfl, fun _ => row_of_gap .nil⟩

theorem tracked_unexpected : Tracked rest cs (.error (.unexpected cs)) :=
  ⟨[], rfl, fun _ => row_of_gap .nil⟩

end

/-! ## White space and comments -/

def Unclosed : Between → List Char → Fault → Prop
  | .tokens, cs, f => ∃ gap rest, cs = gap ++ rest ∧ Gap accepted gap ∧ f = .unexpected rest
  | .lineComment, cs, f => ∃ text gap rest, cs = text ++ '\n' :: (gap ++ rest) ∧ '\n' ∉ text ∧
      Gap accepted gap ∧ f = .unexpected rest
  | .blockComment start, cs, f => f = .unexpected start ∨
      ∃ text gap rest, cs = text ++ '*' :: '/' :: (gap ++ rest) ∧ ¬['*', '/'] <:+: text ∧
        Gap accepted gap ∧ f = .unexpected rest

theorem unclosed_of_skipFrom {b : Between} {cs : List Char} {f : Fault}
    (h : skipFrom b cs = .error f) : Unclosed b cs f := by
  fun_induction skipFrom b cs with
  | case1 start => exact .inl (Except.error.inj h).symm
  | case2 => cases h
  | case3 start cs ih =>
    obtain ⟨gap, rest, rfl, own, same⟩ := ih h
    exact .inr ⟨[], gap, rest, rfl, by simp, own, same⟩
  | case4 start c cs other ih =>
    refine (ih h).imp_right ?_
    rintro ⟨text, gap, rest, rfl, inside, own, same⟩
    refine ⟨c :: text, gap, rest, rfl, ?_, own, same⟩
    rw [List.infix_cons_iff, not_or]
    refine ⟨fun begins => ?_, inside⟩
    obtain ⟨rfl, text, rfl⟩ := List.cons_prefix_cons.1 begins
    exact other _ rfl rfl
  | case5 c cs ih =>
    have unclosed := ih h
    split at unclosed
    next ends =>
      obtain ⟨gap, rest, rfl, own, same⟩ := unclosed
      exact ⟨[], gap, rest, by rw [ends]; rfl, by simp, own, same⟩
    next inline =>
      obtain ⟨text, gap, rest, rfl, plain, own, same⟩ := unclosed
      exact ⟨c :: text, gap, rest, rfl, by simp [plain, Ne.symm inline], own, same⟩
  | case6 cs ih =>
    obtain ⟨text, gap, rest, rfl, plain, own, same⟩ := ih h
    exact ⟨'/' :: '/' :: (text ++ '\n' :: gap), rest, by simp, .line plain trivial own, same⟩
  | case7 cs ih =>
    rcases ih h with same | ⟨text, gap, rest, rfl, inside, own, same⟩
    · exact ⟨[], _, rfl, .nil, same⟩
    · exact ⟨'/' :: '*' :: (text ++ '*' :: '/' :: gap), rest, by simp, .block inside own, same⟩
  | case8 c cs _ _ white ih =>
    obtain ⟨gap, rest, rfl, own, same⟩ := ih h
    exact ⟨c :: gap, rest, rfl, .blank white own, same⟩
  | case9 => cases h

theorem tracked_skip (cs : List Char) : Tracked id cs (skip cs) := by
  cases skipped : skip cs with
  | error f =>
    obtain ⟨gap, rest, rfl, own, rfl⟩ := unclosed_of_skipFrom skipped
    exact ⟨gap, rfl, fun _ => row_of_gap own⟩
  | ok rest =>
    obtain ⟨passed, rfl, whole, -⟩ := skip_skipped skipped
    exact ⟨passed, rfl, fun more => row_of_gap (whole.gap more)⟩

theorem tracked_expect {c : Char} (h : c ∈ marks) (cs : List Char) :
    Tracked id cs (expect c cs) := by
  refine (tracked_skip cs).bind fun rest _ => ?_
  cases rest with
  | nil => exact tracked_unexpected
  | cons d rest =>
    show Tracked id (d :: rest) (if d = c then _ else _)
    split
    next same => exact same ▸ leaves_mark h rest
    next => exact tracked_unexpected

/-! ## Texts -/

theorem fault_of_readBody {quote : Char} {start cs : List Char} {f : Fault}
    (h : readBody quote start cs = .error f) :
    f = .unexpected [] ∨ f = .unterminated start ∨ f = .interpolated start ∨
      ∃ body value behind, cs = body ++ '\\' :: behind ∧ Body accepted quote body value ∧
        f = .invalidEscape ('\\' :: behind) ∧ readEscape behind = none := by
  fun_induction readBody quote start cs with
  | case1 => exact .inr (.inl (Except.error.inj h).symm)
  | case2 => cases h
  | case3 cs none _ =>
    obtain rfl := Except.error.inj h
    split
    · exact .inl rfl
    · exact .inr (.inr (.inr ⟨[], [], cs, rfl, .nil, rfl, none⟩))
  | case4 cs out rest esc _ ih =>
    cases found : readBody quote start rest with
    | ok more => simp [found, Except.map] at h
    | error e =>
      simp only [found, Except.map, Except.error.injEq] at h
      refine (ih (found.trans (congrArg _ h))).imp_right (Or.imp_right (Or.imp_right ?_))
      rintro ⟨body, value, behind, rfl, whole, same, none⟩
      obtain ⟨e, rfl, escape⟩ := escape_of_readEscape esc
      exact ⟨'\\' :: (e ++ body), out ++ value, behind, by simp, .escape escape.shorten whole, same,
        none⟩
  | case5 => exact .inr (.inr (.inl (Except.error.inj h).symm))
  | case6 => exact .inr (.inl (Except.error.inj h).symm)
  | case7 c cs other backslash interpolation line ih =>
    cases found : readBody quote start cs with
    | ok more => simp [found, Except.map] at h
    | error e =>
      simp only [found, Except.map, Except.error.injEq] at h
      refine (ih (found.trans (congrArg _ h))).imp_right (Or.imp_right (Or.imp_right ?_))
      rintro ⟨body, value, behind, rfl, whole, same, none⟩
      refine ⟨c :: body, c :: value, behind, rfl, ?_, same, none⟩
      refine .raw other backslash (fun plain => ?_) (fun back dollar opens => ?_) trivial whole
      · simpa [plain] using line
      · exact interpolation ⟨back, dollar, by rw [List.head?_append, opens]; rfl⟩

theorem quote_of_interpolated {quote : Char} {start cs rest : List Char}
    (h : readBody quote start cs = .error (.interpolated rest)) : quote = '\x60' := by
  fun_induction readBody quote start cs with
  | case1 => cases h
  | case2 => cases h
  | case3 =>
    have same := Except.error.inj h
    split at same <;> cases same
  | case4 cs out rest' esc _ ih =>
    cases found : readBody quote start rest' with
    | ok more => simp [found, Except.map] at h
    | error e =>
      simp only [found, Except.map, Except.error.injEq] at h
      exact ih (found.trans (congrArg _ h))
  | case5 c cs other backslash interpolation => exact interpolation.1
  | case6 => cases h
  | case7 c cs other backslash interpolation line ih =>
    cases found : readBody quote start cs with
    | ok more => simp [found, Except.map] at h
    | error e =>
      simp only [found, Except.map, Except.error.injEq] at h
      exact ih (found.trans (congrArg _ h))

theorem tracked_body {quote : Char} (quoted : isQuote quote = true) (cs : List Char) :
    Tracked Prod.snd (quote :: cs) (readBody quote (quote :: cs) cs) := by
  have own : readText (quote :: cs) = readBody quote (quote :: cs) cs := if_pos quoted
  cases read : readBody quote (quote :: cs) cs with
  | error f =>
    have here : Leaves (quote :: cs) (quote :: cs) := ⟨[], rfl, fun _ => row_of_gap .nil⟩
    rcases fault_of_readBody read with rfl | rfl | rfl | ⟨body, value, behind, rfl, whole, rfl, none⟩
    · exact ⟨_, (List.append_nil _).symm, fun more => absurd rfl more⟩
    · exact ⟨by simp, here, own.trans read⟩
    · exact ⟨by simp, here, own.trans read⟩
    · exact ⟨quote, body, value, behind, here, quoted, whole, rfl, none⟩
  | ok r =>
    obtain ⟨out, rest⟩ := r
    obtain ⟨body, rfl, whole⟩ := body_of_readBody read
    have text : quote :: (body ++ quote :: rest) =
        (Token.literal quote body out).text ++ rest := by simp [Token.text]
    rw [text]
    exact leaves_of_piece (p := ⟨[], .literal quote body out⟩) ⟨.nil, quoted, whole⟩ rest

theorem tracked_text (cs : List Char) : Tracked Prod.snd cs (readText cs) := by
  cases cs with
  | nil => exact tracked_unexpected
  | cons c cs =>
    show Tracked Prod.snd (c :: cs) (if isQuote c = true then _ else _)
    split
    next quoted => exact tracked_body quoted cs
    next => exact tracked_unexpected

theorem tracked_nextText (cs : List Char) : Tracked Prod.snd cs (readNextText cs) :=
  (tracked_skip cs).bind fun rest _ => tracked_text rest

theorem tracked_chain (acc cs : List Char) : Tracked Prod.snd cs (readChain acc cs) := by
  fun_induction readChain acc cs with
  | case1 acc cs f skipped =>
    have := tracked_skip cs
    rwa [skipped] at this
  | case2 acc cs rest skipped f read =>
    have front := tracked_skip cs
    have text := tracked_nextText rest
    rw [skipped] at front
    rw [read] at text
    exact Stands.behind (Leaves.trans front (leaves_mark (List.mem_cons_self ..) rest)) text
  | case3 acc cs rest skipped more rest' read ih =>
    have front := tracked_skip cs
    have text := tracked_nextText rest
    rw [skipped] at front
    rw [read] at text
    have here : Leaves cs rest' :=
      (Leaves.trans front (leaves_mark (List.mem_cons_self ..) rest)).trans text
    exact ih.behind here
  | case4 acc cs rest skipped =>
    have front := tracked_skip cs
    rwa [‹skip cs = _›] at front

theorem tracked_value (cs : List Char) : Tracked Prod.snd cs (readValue cs) :=
  (tracked_nextText cs).bind fun first _ => tracked_chain first.1 first.2

/-! ## Lists and objects -/

theorem tracked_items {α : Type} {close : Char} (own : close ∈ marks)
    {item : List Char → Except Fault (Reading α)}
    {shorter : ∀ {cs rest : List Char} {a : α}, item cs = .ok (a, rest) → rest.length < cs.length}
    (each : ∀ cs, Tracked Prod.snd cs (item cs)) (cs : List Char) :
    Tracked Prod.snd cs (readItems close item shorter cs) := by
  have comma : ',' ∈ marks := by decide
  -- The item behind a gap, and the gap behind the item.
  have one {cs first behind : List Char} {a : α} (skipped : skip cs = .ok first)
      (read : item first = .ok (a, behind)) : Leaves cs behind := by
    have front := tracked_skip cs
    have text := each first
    rw [skipped] at front
    rw [read] at text
    exact Leaves.trans front text
  have both {cs first behind rest : List Char} {a : α} (skipped : skip cs = .ok first)
      (read : item first = .ok (a, behind)) (ends : skip behind = .ok rest) : Leaves cs rest := by
    have gap := tracked_skip behind
    rw [ends] at gap
    exact (one skipped read).trans gap
  fun_induction readItems close item shorter cs with
  | case1 cs f skipped =>
    have := tracked_skip cs
    rwa [skipped] at this
  | case2 cs first skipped closes =>
    have front := tracked_skip cs
    rw [skipped] at front
    obtain ⟨rest, rfl⟩ := List.head?_eq_some_iff.1 closes
    exact Leaves.trans front (leaves_mark own rest)
  | case3 cs first skipped _ f read =>
    have front := tracked_skip cs
    have text := each first
    rw [skipped] at front
    rw [read] at text
    exact Stands.behind front text
  | case4 cs first skipped _ a behind read f ends =>
    have gap := tracked_skip behind
    rw [ends] at gap
    exact Stands.behind (one skipped read) gap
  | case5 cs first skipped _ a behind read ends => exact both skipped read ends
  | case6 cs first skipped _ a behind read rest ends ih =>
    have front : Leaves cs rest := (both skipped read ends).trans (leaves_mark comma rest)
    exact (Tracked.map ih (fun r => (a :: r.1, r.2)) fun _ => rfl).behind front
  | case7 cs first skipped _ a behind read rest ends =>
    exact (both skipped read ends).trans (leaves_mark own rest)
  | case8 cs first skipped _ a behind read c rest ends => exact both skipped read ends

theorem tracked_list (cs : List Char) : Tracked Prod.snd cs (readList cs) :=
  (tracked_expect (by decide) cs).bind fun _ _ => tracked_items (by decide) tracked_value _

theorem tracked_name (cs : List Char) : Tracked Prod.snd cs (readName cs) := by
  cases cs with
  | nil => exact tracked_unexpected
  | cons c cs =>
    show Tracked Prod.snd (c :: cs) (if c = '\x27' ∨ c = '"' then _ else _)
    split
    next plain =>
      refine tracked_body ?_ cs
      rcases plain with rfl | rfl <;> rfl
    next =>
      split
      next start =>
        have whole : c :: cs = (Token.word (c :: cs.takeWhile isWordPart)).text ++
            cs.dropWhile isWordPart := by
          simp [Token.text, List.takeWhile_append_dropWhile]
        rw [whole]
        exact leaves_of_piece (p := ⟨[], .word (c :: cs.takeWhile isWordPart)⟩)
          ⟨.nil, c, _, rfl, start, List.all_takeWhile⟩ _
      next => exact tracked_unexpected

theorem tracked_propertyValue (cs : List Char) : Tracked Prod.snd cs (readPropertyValue cs) := by
  refine (tracked_skip cs).bind fun rest _ => ?_
  show Tracked Prod.snd rest (if rest.head? = some '[' then _ else _)
  split
  · exact (tracked_list rest).bind fun _ _ => tracked_here rfl
  · exact (tracked_value rest).bind fun _ _ => tracked_here rfl

theorem tracked_property (cs : List Char) : Tracked Prod.snd cs (readProperty cs) := by
  refine (tracked_name cs).bind fun name _ => ?_
  refine (tracked_expect (by decide) _).bind fun rest _ => ?_
  refine (tracked_propertyValue _).bind fun value _ => ?_
  show Tracked Prod.snd value.2 (if (Property.mk name.1 value.1).isListedKey = true then _ else _)
  split
  · trivial
  · exact tracked_here rfl

/-! ## Keys and values -/

theorem tracked_object (cs : List Char) : Tracked Prod.snd cs (readObject cs) := by
  refine (tracked_expect (by decide) cs).bind fun rest _ => ?_
  refine (tracked_items (by decide) tracked_property _).bind fun found _ => ?_
  show Tracked Prod.snd found.2 (describedKey found.1 >>= fun key => pure (key, found.2))
  unfold describedKey
  split
  · exact tracked_here rfl
  · trivial

theorem tracked_key (cs : List Char) : Tracked Prod.snd cs (readKey cs) := by
  refine (tracked_skip cs).bind fun rest _ => ?_
  show Tracked Prod.snd rest (if rest.head? = some '{' then _ else _)
  split
  · exact tracked_object rest
  · exact (tracked_value rest).bind fun _ _ => tracked_here rfl

theorem tracked_finish {α : Type} (read : Reading α) :
    Tracked (fun _ => []) read.2 (finish read) := by
  refine (tracked_skip read.2).bind fun rest _ => ?_
  cases rest with
  | nil => exact tracked_here rfl
  | cons c rest => exact tracked_unexpected

end BundlePrep.Message.Grammar
