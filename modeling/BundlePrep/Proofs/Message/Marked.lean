import BundlePrep.Proofs.Message.Keys
import BundlePrep.Proofs.Script.Marked

/-!
# Messages behind a mark of the byte order

The ranges of keys are counted without the mark, but they cut the text with it. What stands in front
of the first key stays as it is, and the placeholder for it begins three bytes early, which shows in
every script with a call.
-/

set_option autoImplicit false

namespace BundlePrep.Message

open BundlePrep.Json BundlePrep.Script BundlePrep.Text

/-- Messages are extracted from a script with a mark like from the one without it. -/
def Transparent (dialect : Dialect) (moduleId code : String) : Prop :=
  Script.Agree (fun plain withMark => withMark = { plain with code := marked plain.code })
    (extract dialect moduleId code) (extract dialect moduleId (marked code))

/-! ## In front of the keys -/

def Behind (p : List Char) (count : Nat) (range : Range) : Prop :=
  notAfter (positionOf p) range.start = true ∧ range.start.line < count

theorem Behind.line {p : List Char} {count : Nat} {range : Range} (h : Behind p count range) :
    (heads p).length ≤ range.start.line := by
  have order := notAfter_iff.1 h.1
  simp only [positionOf] at order
  omega

theorem Behind.column {p : List Char} {count : Nat} {range : Range} (h : Behind p count range)
    (same : range.start.line = (heads p).length) :
    byteLength (lastLine p) ≤ range.start.column := by
  have order := notAfter_iff.1 h.1
  simp only [positionOf] at order
  omega

theorem before_prefix (column : Nat) (line : List Char) :
    Document.before column line <+: line := by
  unfold Document.before
  cases cut : splitAt? (min column (byteLength line)) line with
  | none => exact List.prefix_refl line
  | some parts =>
    obtain ⟨whole, -⟩ := splitAt?_eq_some cut
    exact ⟨parts.2, whole.symm⟩

theorem head_of_before {column : Nat} {line more : List Char}
    (h : line = [] ∨ line.head? = some '"') :
    (Document.before column line ++ '"' :: more).head? = some '"' := by
  obtain ⟨tail, whole⟩ := before_prefix column line
  cases front : Document.before column line with
  | nil => rfl
  | cons c cs =>
    rw [front, List.cons_append] at whole
    rcases h with rfl | head
    · cases whole
    · rw [← whole] at head
      exact head

theorem lineCount_replaceKeys (document : Document) (found : List (Call × Entry)) :
    (replaceKeys document found).lineCount = document.lineCount := by
  induction found with
  | nil => rfl
  | cons r found ih => exact (Document.lineCount_replace _ _ _).trans ih

/-- Keys behind a text leave it in front. Where nothing stood in the line that the text goes on with,
a quoted placeholder comes in if anything does. -/
theorem replaceKeys_behind {p : List Char} {line : Line} {lines : List Line}
    {found : List (Call × Entry)}
    (behind : ∀ r ∈ found, Behind p (glue p (line :: lines)).length r.1.keyRange) :
    ∃ text more, replaceKeys ⟨glue p (line :: lines)⟩ found =
        ⟨glue p ({ line with content := text } :: more)⟩ ∧
      (line.content = [] → text = [] ∨ text.head? = some '"') := by
  induction found with
  | nil => exact ⟨line.content, lines, rfl, .inl⟩
  | cons r found ih =>
    obtain ⟨call, entry⟩ := r
    obtain ⟨text, more, later, opens⟩ := ih fun r mem => behind r (List.mem_cons_of_mem _ mem)
    have own := behind _ (List.mem_cons_self ..)
    have count : (glue p ({ line with content := text } :: more)).length =
        (glue p (line :: lines)).length := by
      have kept := lineCount_replaceKeys ⟨glue p (line :: lines)⟩ found
      rwa [later] at kept
    obtain ⟨text', more', replaced, other, here⟩ := @replace_behind _ _ _ call.keyRange
      (quoteChars entry.placeholder.toList) own.line own.column (count ▸ own.2)
    refine ⟨text', more', ?_, fun empty => ?_⟩
    · show (replaceKeys ⟨glue p (line :: lines)⟩ found).replace _ _ = _
      rw [later, replaced]
    · by_cases same : call.keyRange.start.line = (heads p).length
      · have column : call.keyRange.start = ⟨(heads p).length, byteLength (lastLine p) +
            (call.keyRange.start.column - byteLength (lastLine p))⟩ := by
          rw [Nat.add_sub_of_le (own.column same), ← same]
        obtain ⟨tail, rfl⟩ := here _ column
        exact .inr (head_of_before (opens empty))
      · rw [other same]
        exact opens empty

/-- The first key leaves the text in front of its line, and of the line what stands in front of its
column after the other keys. -/
theorem exists_toText {p : List Char} {line : Line} {lines : List Line} {call : Call}
    (entry : Entry) {found : List (Call × Entry)} {column : Nat}
    (start : call.keyRange.start = ⟨(heads p).length, byteLength (lastLine p) + column⟩)
    (behind : ∀ r ∈ found, Behind p (glue p (line :: lines)).length r.1.keyRange) :
    ∃ text more, (replaceKeys ⟨glue p (line :: lines)⟩ ((call, entry) :: found)).toText =
        p ++ (Document.before column text ++ (quoteChars entry.placeholder.toList ++ more)) ∧
      (line.content = [] → text = [] ∨ text.head? = some '"') := by
  obtain ⟨text, more, later, opens⟩ := replaceKeys_behind behind
  obtain ⟨text', more', replaced, -, here⟩ := @replace_behind p { line with content := text } more
    call.keyRange (quoteChars entry.placeholder.toList) (by rw [start]) (fun _ => by rw [start]; simp)
    (by rw [start, length_glue]; simp)
  obtain ⟨tail, rfl⟩ := here column start
  refine ⟨text, tail ++ line.ending.text ++ Document.toText ⟨more'⟩, ?_, opens⟩
  show Document.toText ((replaceKeys ⟨glue p (line :: lines)⟩ found).replace _ _) = _
  rw [later, replaced, toText_glue _ (by simp)]
  simp [Document.toText]

/-- The placeholder of the first key goes on the text in front of it, at the key, or in front of a
line ending in which the key begins. -/
theorem toText_replaceKeys {text front rest : List Char} (whole : text = front ++ rest)
    {call : Call} (entry : Entry) {found : List (Call × Entry)}
    (start : call.keyRange.start = positionOf front)
    (behind : ∀ r ∈ found, Behind front (Document.ofText text).lineCount r.1.keyRange) :
    (∃ more, (replaceKeys (.ofText text) ((call, entry) :: found)).toText =
        front ++ (quoteChars entry.placeholder.toList ++ more)) ∨
      ∃ p more, front = p ++ ['\r'] ∧
        (replaceKeys (.ofText text) ((call, entry) :: found)).toText = p ++ '"' :: more := by
  by_cases apart : front.getLast? = some '\r' → rest.head? ≠ some '\n'
  · obtain ⟨line, lines, behindFront⟩ :=
      List.exists_cons_of_ne_nil (glue_ne_nil rest (List.cons_ne_nil ⟨[], .none⟩ []))
    have document : Document.ofText text = ⟨glue front (line :: lines)⟩ := by
      rw [ofText_eq_glue, whole, glue_append rest apart, behindFront]
    rw [document] at behind ⊢
    obtain ⟨text', more, same, -⟩ := @exists_toText _ _ _ _ entry _ 0 start behind
    refine .inl ⟨more, ?_⟩
    rw [same]
    simp [Document.before, splitAt?_zero]
  · rw [Classical.not_imp, not_not] at apart
    obtain ⟨p, rfl⟩ := List.getLast?_eq_some_iff.1 apart.1
    obtain ⟨rest, rfl⟩ := List.head?_eq_some_iff.1 apart.2
    have document : Document.ofText text = ⟨glue p (⟨[], .carriageReturnLineFeed⟩ ::
        glue rest [⟨[], .none⟩])⟩ := by
      rw [ofText_eq_glue, whole, List.append_assoc, List.singleton_append,
        glue_append _ (by simp), glue_carriageReturnLineFeed]
    have column : positionOf (p ++ ['\r']) = ⟨(heads p).length, byteLength (lastLine p) + 1⟩ := by
      rw [positionOf_append ['\r'] (by simp)]
      rfl
    rw [column] at start
    rw [document] at behind ⊢
    obtain ⟨text', more, same, opens⟩ := exists_toText entry start fun r mem =>
      ⟨notAfter_trans (notAfter_positionOf p ['\r']).1 (behind r mem).1, (behind r mem).2⟩
    rw [quoteChars, List.cons_append, List.cons_append] at same
    obtain ⟨tail, head⟩ := List.head?_eq_some_iff.1 (head_of_before (opens rfl))
    exact .inr ⟨p, tail, rfl, same.trans (congrArg (p ++ ·) head)⟩

/-! ## The first key -/

theorem quoteChars_placeholder (flavor : Flavor) (moduleId key : String) (rest : List Char) :
    ∃ more, quoteChars (placeholder flavor moduleId key).toList ++ rest =
      '"' :: '%' :: '%' :: 'N' :: more := by
  rw [toList_placeholder, quoteChars, encode_append]
  cases flavor <;> exact ⟨_, rfl⟩

structure Opened (program : Program) (code : String) (extraction : Extraction) (start : Nat)
    (front : List Char) : Prop where
  listed : ∃ flavor, ∃ site ∈ sites flavor program, site.key.start = start
  first : ∀ flavor, ∀ site ∈ sites flavor program, start ≤ site.key.start
  size : byteLength front = start
  whole : ∃ rest, code.toList = front ++ rest
  code : (∃ more, extraction.code.toList = front ++ '"' :: '%' :: '%' :: 'N' :: more) ∨
    ∃ p more, front = p ++ ['\r'] ∧ extraction.code.toList = p ++ '"' :: more

theorem readable {moduleId : String} {found : List Call} {entries : List Entry}
    (each : List.Forall₂ (fun call entry => entryOf moduleId call = .ok entry) found entries) :
    ∀ call ∈ found, ∃ key, parseKey call.key = .ok key := by
  induction each with
  | nil => simp
  | cons read _ ih =>
    intro call mem
    rcases List.mem_cons.1 mem with rfl | mem
    · obtain ⟨key, -, parsed, -⟩ := entryOf_eq_ok read
      exact ⟨key, parsed⟩
    · exact ih call mem

theorem line_lt_lineCount {text front rest : List Char} (whole : text = front ++ rest) :
    (positionOf front).line < (Document.ofText text).lineCount := by
  simp only [positionOf, Document.lineCount, Document.ofText, splitLines_eq, List.length_append,
    length_heads, whole, List.count_append, List.length_singleton]
  omega

theorem exists_opened {dialect : Dialect} {moduleId code : String} {extraction : Extraction}
    (extracted : extract dialect moduleId code = .ok extraction)
    (nonempty : extraction.entries ≠ []) :
    ∃ program start front, Program.parse? dialect code.toList = some program ∧
      Opened program code extraction start front := by
  obtain ⟨each, text⟩ := extract_eq_ok extracted
  have sorted := sorted_recorded dialect code
  have keys := readable each
  generalize entriesEq : extraction.entries = entries at each text nonempty
  cases calls : recorded dialect code with
  | nil =>
    rw [calls] at each
    cases each
    exact absurd rfl nonempty
  | cons call found =>
  rw [calls] at each text keys sorted
  cases each with
  | @cons _ entry _ entries read more =>
  have own := mem_recorded.1 (calls ▸ List.mem_cons_self .. : call ∈ recorded dialect code)
  obtain ⟨named, program, parsed, flavor, site, listed, rfl⟩ := own
  obtain ⟨key, readable⟩ := keys _ (List.mem_cons_self ..)
  obtain ⟨front, part, behind, whole, -, start, range⟩ := exists_key readable
  -- Every other key begins behind the same text.
  have later (call' : Call) (mem : call' ∈ recorded dialect code) :
      notAfter (positionOf front) call'.keyRange.start = true := by
    rw [calls] at mem
    rcases List.mem_cons.1 mem with rfl | mem
    · rw [range]
      exact notAfter_iff.2 (.inr ⟨rfl, Nat.le_refl _⟩)
    · have order := (List.pairwise_cons.1 sorted).1 call' mem
      rwa [range] at order
  refine ⟨program, site.key.start, front, parsed, ⟨flavor, site, listed, rfl⟩, ?_, start.symm,
    ⟨_, whole⟩, ?_⟩
  · intro flavor' site' listed'
    have mem := mem_recorded.2 ⟨named, program, parsed, flavor', site', listed', rfl⟩
    obtain ⟨key', readable'⟩ := keys _ (calls ▸ mem)
    obtain ⟨front', part', behind', whole', -, start', range'⟩ := exists_key readable'
    have order := later _ mem
    rw [range'] at order
    obtain ⟨gap, rfl⟩ := prefix_of_notAfter ⟨_, whole.symm⟩ ⟨_, whole'.symm⟩ order
    rw [start, start', byteLength_append]
    exact Nat.le_add_right _ _
  · obtain ⟨key', message, -, -, rfl⟩ := entryOf_eq_ok read
    rw [List.zip_cons_cons] at text
    have others : ∀ r ∈ found.zip entries,
        Behind front (Document.ofText code.toList).lineCount r.1.keyRange := by
      intro r mem
      have inside := List.mem_cons_of_mem (.ofSite flavor code.toList (.ofText code.toList) site)
        (List.of_mem_zip mem).1
      refine ⟨later _ (calls ▸ inside), ?_⟩
      obtain ⟨flavor', site', same⟩ := exists_ofSite (calls ▸ inside)
      obtain ⟨key', readable'⟩ := keys _ inside
      rw [same] at readable' ⊢
      obtain ⟨front', part', behind', whole', -, -, range'⟩ := exists_key readable'
      rw [range']
      exact line_lt_lineCount whole'
    rcases toText_replaceKeys whole _ (by rw [range]) others with ⟨tail, code⟩ | ⟨p, tail, ends, code⟩
    · obtain ⟨tail', opening⟩ := quoteChars_placeholder flavor moduleId key'.primary tail
      exact .inl ⟨tail', text.trans (code.trans (congrArg (front ++ ·) opening))⟩
    · exact .inr ⟨p, tail, ends, text.trans code⟩

/-! ## Both scripts -/

theorem no_early_quote {gap more more' : List Char} (some : 0 < byteLength gap)
    (few : byteLength gap ≤ 3) :
    gap ++ '"' :: more ≠ '"' :: '%' :: '%' :: 'N' :: more' := by
  intro same
  match gap, same with
  | [], _ => exact absurd some (by decide)
  | [_], same => simp at same
  | [_, _], same => simp at same
  | [_, _, _], same => simp at same
  | c :: d :: e :: f :: _, _ =>
    have := c.utf8Size_pos
    have := d.utf8Size_pos
    have := e.utf8Size_pos
    have := f.utf8Size_pos
    simp only [byteLength] at few
    omega

theorem Opened.quote {program : Program} {code : String} {extraction : Extraction} {start : Nat}
    {front : List Char} (h : Opened program code extraction start front) :
    ∃ seen more, extraction.code.toList = seen ++ '"' :: more ∧
      (front = seen ∨ front = seen ++ ['\r']) := by
  rcases h.code with ⟨more, code⟩ | ⟨p, more, ends, code⟩
  · exact ⟨front, _, code, .inl rfl⟩
  · exact ⟨p, more, code, .inr ends⟩

/-- The placeholder for the first key shows the mark: it begins at the offset that is counted without
it. -/
theorem Opened.code_ne {program : Program} {code : String} {extraction extraction' : Extraction}
    {start : Nat} {front front' : List Char} (h : Opened program code extraction start front)
    (h' : Opened program (marked code) extraction' start front') :
    extraction'.code ≠ marked extraction.code := by
  intro same
  obtain ⟨rest, whole⟩ := h.whole
  obtain ⟨rest', whole'⟩ := h'.whole
  obtain ⟨gap, parts, -, three⟩ := exists_three whole whole' (by rw [h.size, h'.size])
  rw [h.size, h'.size] at three
  obtain ⟨seen, more, text, ends⟩ := h.quote
  obtain ⟨gap, parts, some, few⟩ : ∃ gap, '\ufeff' :: seen = front' ++ gap ∧
      0 < byteLength gap ∧ byteLength gap ≤ 3 := by
    rcases ends with rfl | rfl
    · exact ⟨gap, parts, by omega, by omega⟩
    · obtain ⟨gap, rfl⟩ : ∃ shorter, gap = shorter ++ ['\r'] := by
        refine List.getLast?_eq_some_iff.1 ?_
        have last := congrArg List.getLast? parts
        have nonempty : gap ≠ [] := by
          rintro rfl
          rw [byteLength] at three
          omega
        rw [← List.cons_append, List.getLast?_concat, List.getLast?_append_of_ne_nil _ nonempty]
          at last
        exact last.symm
      rw [byteLength_append, byteLength, byteLength, utf8Size_carriageReturn] at three
      rw [← List.cons_append, ← List.append_assoc] at parts
      exact ⟨gap, List.append_cancel_right parts, by omega, by omega⟩
  have both : extraction'.code.toList = front' ++ (gap ++ '"' :: more) := by
    rw [same, toList_marked, text, ← List.cons_append, parts, List.append_assoc]
  rcases h'.code with ⟨more', code⟩ | ⟨p, more', rfl, code⟩
  · rw [code] at both
    exact no_early_quote some few (List.append_cancel_left both).symm
  · rw [code, List.append_assoc] at both
    simpa using List.append_cancel_left both

theorem Opened.start_eq {program : Program} {code code' : String}
    {extraction extraction' : Extraction} {start start' : Nat} {front front' : List Char}
    (h : Opened program code extraction start front)
    (h' : Opened program code' extraction' start' front') : start = start' := by
  obtain ⟨flavor, site, listed, own⟩ := h.listed
  obtain ⟨flavor', site', listed', own'⟩ := h'.listed
  have first := h.first flavor' site' listed'
  have first' := h'.first flavor site listed
  omega

theorem extract_nil {dialect : Dialect} {moduleId code : String} {extraction : Extraction}
    (extracted : extract dialect moduleId code = .ok extraction) (none : extraction.entries = []) :
    recorded dialect code = [] ∧ extraction = ⟨code, []⟩ := by
  obtain ⟨each, text⟩ := extract_eq_ok extracted
  rw [none] at each
  have calls : recorded dialect code = [] := by
    cases found : recorded dialect code with
    | nil => rfl
    | cons call calls =>
      rw [found] at each
      cases each
  refine ⟨calls, ?_⟩
  obtain ⟨out, entries⟩ := extraction
  obtain rfl : entries = [] := none
  rw [calls, List.zip_nil_left] at text
  have same : out = code := String.toList_inj.1 (text.trans (Document.toText_ofText code.toList))
  rw [same]

theorem extract_of_recorded_nil {dialect : Dialect} {moduleId code : String}
    (calls : recorded dialect code = [])
    (parsed : occursIn Flavor.blank.function.toList code.toList = true →
      Program.parse? dialect code.toList ≠ none) :
    extract dialect moduleId code = .ok ⟨code, []⟩ := by
  unfold extract
  unfold recorded at calls
  cases named : occursIn Flavor.blank.function.toList code.toList with
  | false => simp [named]
  | true =>
    rw [if_pos named] at calls
    cases found : Program.parse? dialect code.toList with
    | none => exact absurd found (parsed named)
    | some program =>
      rw [found] at calls
      simp only [Option.map_some, Option.getD_some] at calls
      simp only [named, found, calls, Bool.not_true, Bool.false_eq_true, if_false, List.mapM_nil]
      rfl

theorem parse?_ne_none {dialect : Dialect} {moduleId code : String} {extraction : Extraction}
    (extracted : extract dialect moduleId code = .ok extraction)
    (named : occursIn Flavor.blank.function.toList code.toList = true) :
    Program.parse? dialect code.toList ≠ none := by
  intro none
  unfold extract at extracted
  simp [named, none] at extracted

theorem transparent_iff {dialect : Dialect} {code : String}
    (plain : code.toList.head? ≠ some '\ufeff') (moduleId : String) :
    Transparent dialect moduleId code ↔
      extract dialect moduleId code = .ok ⟨code, []⟩ ∨
        ∃ e e', extract dialect moduleId code = .error e ∧
          extract dialect moduleId (marked code) = .error e' := by
  have parses := parse?_marked dialect plain
  have names : occursIn Flavor.blank.function.toList (marked code).toList =
      occursIn Flavor.blank.function.toList code.toList :=
    occursIn_marked (c := 'l') (by decide) "ocalize".toList code
  constructor
  · intro transparent
    unfold Transparent at transparent
    cases extracted : extract dialect moduleId code with
    | error e =>
      cases extracted' : extract dialect moduleId (marked code) with
      | error e' => exact .inr ⟨e, e', rfl, rfl⟩
      | ok extraction' =>
        rw [extracted, extracted'] at transparent
        exact transparent.elim
    | ok extraction =>
      cases extracted' : extract dialect moduleId (marked code) with
      | error e' =>
        rw [extracted, extracted'] at transparent
        exact transparent.elim
      | ok extraction' =>
        rw [extracted, extracted'] at transparent
        obtain rfl : extraction' = { extraction with code := marked extraction.code } := transparent
        by_cases none : extraction.entries = []
        · rw [(extract_nil extracted none).2]
          exact .inl rfl
        · obtain ⟨program, start, front, parsed, opened⟩ := exists_opened extracted none
          obtain ⟨program', start', front', parsed', opened'⟩ := exists_opened extracted' none
          rw [parses, parsed] at parsed'
          obtain rfl := Option.some.inj parsed'
          obtain rfl := opened.start_eq opened'
          exact absurd rfl (opened.code_ne opened')
  · rintro (extracted | ⟨e, e', refused, refused'⟩)
    · obtain ⟨calls, -⟩ := extract_nil extracted rfl
      have calls' : recorded dialect (marked code) = [] := by
        refine List.eq_nil_iff_forall_not_mem.2 fun call mem => ?_
        obtain ⟨named, program, parsed, flavor, site, listed, -⟩ := mem_recorded.1 mem
        have known := mem_recorded.2 ⟨names.symm.trans named, program, parses.symm.trans parsed,
          flavor, site, listed, rfl⟩
        rw [calls] at known
        cases known
      have extracted' : extract dialect moduleId (marked code) = .ok ⟨marked code, []⟩ :=
        extract_of_recorded_nil calls' fun named none =>
          parse?_ne_none extracted (names.symm.trans named) (parses.symm.trans none)
      unfold Transparent
      rw [extracted, extracted']
      rfl
    · unfold Transparent
      rw [refused, refused']
      trivial

end BundlePrep.Message
