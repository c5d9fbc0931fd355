import BundlePrep.Proofs.PrivateName.Parts

/-!
# The items of a converted script

A conversion puts one name in the place of each private name, or one quoted text to the left of `in`,
and leaves all other items as they are, exactly if no private name stands among the types of a class
and no new name stands directly behind an item that it goes on: the mark in front of a private name
sets it apart from a word, but the new name begins with a letter. Whether the new text parses is then
a matter of the grammar, which does not take a name in all places of a private name.
-/

set_option autoImplicit false

namespace BundlePrep.PrivateName

open BundlePrep.Script BundlePrep.Text

def Bare : List Part → Prop
  | .name [] _ false _ :: _ => True
  | _ => False

/-- No new name stands directly behind an item that it goes on. -/
def Separate : List Part → Prop
  | [] => True
  | part :: parts =>
    (part.new.goal.sticky part.new.text = true → ¬Bare parts) ∧ Separate parts

instance : DecidablePred Bare
  | .name [] _ false _ :: _ => isTrue trivial
  | [] | .piece _ :: _ | .name (_ :: _) _ _ _ :: _ | .name [] _ true _ :: _ => isFalse id

instance Separate.decidable : DecidablePred Separate
  | [] => isTrue trivial
  | part :: parts =>
    have := Separate.decidable parts
    inferInstanceAs (Decidable ((part.new.goal.sticky part.new.text = true → ¬Bare parts) ∧
      Separate parts))

/-! ## New names -/

theorem isNamePart_shortLetters (number : Nat) : ∀ c ∈ shortLetters number,
    isNamePart c = true ∧ c ≠ '$' ∧ c ≠ '\\' ∧ c ≠ '\x27' ∧ c ≠ '\n' ∧ c ≠ '\r' :=
  forall_mem_shortLetters (by decide +kernel) number

theorem toList_shortName (number : Nat) :
    (shortName number).toList = '$' :: (shortLetters number).reverse := by
  rw [shortName, String.toList_ofList]

theorem parts_of_shortName {number : Nat} {c : Char}
    (mem : c ∈ (shortLetters number).reverse) : isNamePart c = true ∧ c ≠ '\\' := by
  obtain ⟨part, -, backslash, -⟩ := isNamePart_shortLetters number c (List.mem_reverse.1 mem)
  exact ⟨part, backslash⟩

theorem rest?_shortName (number : Nat) (rest : List Char) :
    Lexical.token.rest? ((shortName number).toList ++ rest) = some rest ↔ Breaks rest := by
  rw [toList_shortName]
  exact rest?_name (by decide) fun _ => parts_of_shortName

theorem toList_quoted (number : Nat) : (newName true number).toList =
    '\x27' :: ('$' :: (shortLetters number).reverse ++ ['\x27']) := by
  rw [toList_newName, if_pos rfl, toList_shortName]

theorem rest?_quoted (number : Nat) (rest : List Char) :
    Lexical.token.rest? ((newName true number).toList ++ rest) = some rest := by
  have plain : ∀ c ∈ '$' :: (shortLetters number).reverse,
      c ≠ '\\' ∧ c ≠ '\x27' ∧ c ≠ '\n' ∧ c ≠ '\r' := by
    intro c mem
    rcases List.mem_cons.1 mem with rfl | mem
    · decide
    · exact (isNamePart_shortLetters number c (List.mem_reverse.1 mem)).2.2
  have read := rest?_singleQuoted plain rest
  rw [toList_quoted, List.cons_append, List.append_assoc]
  exact read

theorem lexeme?_newName (quoted : Bool) (number : Nat) :
    ∃ lexeme, lexeme? (newName quoted number).toList 0 = some lexeme ∧ lexeme.rest = [] := by
  have read : Lexical.token.rest? (newName quoted number).toList = some [] := by
    rw [← List.append_nil (newName quoted number).toList]
    cases quoted with
    | true => exact rest?_quoted number []
    | false => exact (rest?_shortName number []).2 (by simp [Breaks])
  cases text : (newName quoted number).toList with
  | nil =>
    have head := head_newName quoted number
    rw [text] at head
    cases head
  | cons c cs =>
    rw [text] at read
    exact Option.map_eq_some_iff.1 read

theorem plain_of_shortName (number : Nat) : '\\' ∉ (shortName number).toList := by
  rw [toList_shortName]
  intro mem
  rcases List.mem_cons.1 mem with same | mem
  · exact absurd same (by decide)
  · exact (parts_of_shortName mem).2 rfl

structure IsNewName (quoted : Bool) (number : Nat) (item : Item) : Prop where
  same : item = ⟨.token, (newName quoted number).toList⟩
  kind : if quoted then item.value? = some (shortName number)
    else item.word? = some (shortName number)

theorem isNewName (quoted : Bool) (number : Nat) :
    IsNewName quoted number ⟨.token, (newName quoted number).toList⟩ := by
  refine ⟨rfl, ?_⟩
  obtain ⟨lexeme, found, rest⟩ := lexeme?_newName quoted number
  have plain := plain_of_shortName number
  cases quoted with
  | true =>
    rw [toList_newName, if_pos rfl] at found
    obtain ⟨w, value, whole, token, same⟩ := textLexeme_text (by decide)
      (show textLexeme '\x27' ((shortName number).toList ++ ['\x27']) 0 = some lexeme from found)
    rw [rest] at whole
    obtain rfl := List.append_cancel_right whole
    have value := same plain
    rw [if_pos rfl, Item.value?, Item.token?, toList_newName, if_pos rfl]
    simp [found, token, value]
  | false =>
    rw [newName_unquoted, toList_shortName, lexeme?_start (by decide)] at found
    obtain ⟨w, name, escaped, whole, token, -, same⟩ := wordLexeme_text found
    rw [rest, List.append_nil, ← toList_shortName] at whole
    rw [if_neg (by decide), Item.word?, Item.token?, newName_unquoted, toList_shortName,
      lexeme?_start (by decide), found]
    simp [token, same (whole ▸ plain), ← whole]

theorem head_newName_append (quoted : Bool) (number : Nat) (rest : List Char) :
    ((newName quoted number).toList ++ rest).head? = some (if quoted then '\x27' else '$') := by
  rw [List.head?_append, head_newName]
  rfl

/-! ## What stands behind an item -/

theorem breaks_of_private {text rest : List Char} (head : text.head? = some '#')
    (h : Lexical.token.rest? (text ++ rest) = some rest) : Breaks rest := by
  obtain ⟨w, rfl⟩ := List.head?_eq_some_iff.1 head
  obtain ⟨lexeme, found, rfl⟩ := Option.map_eq_some_iff.1 h
  exact (wordLexeme_eq_some
    (show wordLexeme (fun text _ => .privateWord text) (w ++ lexeme.rest) (0 + 1) = _ from found)).1

theorem alike_new {parts : List Part} (sound : ∀ part ∈ parts, part.Sound) (last : List Char) :
    Alike (spell last (parts.map Part.old)) (spell last (parts.map Part.new)) := by
  induction parts with
  | nil => exact .refl last
  | cons part parts ih =>
    have more := ih fun p mem => sound p (List.mem_cons_of_mem part mem)
    cases part with
    | piece p => exact (more.append p.text).append p.gap
    | name gap text quoted number =>
      refine Alike.append gap (alike_of_apart ?_ ?_)
      · have own : text.head? = some '#' := sound _ (List.mem_cons_self ..)
        intro c mem
        obtain rfl : '#' = c := by simpa [Part.old, List.head?_append, own] using mem
        decide
      · intro c mem
        rw [Part.new, head_newName_append] at mem
        cases quoted with
        | false =>
          obtain rfl : '$' = c := by simpa using mem
          decide
        | true =>
          obtain rfl : '\x27' = c := by simpa using mem
          decide

/-- A script without private names begins like a new name only where the script does, or where a new
name stands at its front. -/
theorem dollar_new {last : List Char} {newline : Bool} {parts : List Part}
    (sound : ∀ part ∈ parts, part.Sound) (reads : Reads last newline (parts.map Part.old))
    (head : (spell last (parts.map Part.new)).head? = some '$') :
    (spell last (parts.map Part.old)).head? = some '$' ∨ Bare parts := by
  cases parts with
  | nil => exact .inl head
  | cons part parts =>
    cases part with
    | piece p =>
      left
      have front (more : List Char) (nonempty : p.gap ++ p.text ≠ []) :
          (p.gap ++ (p.text ++ more)).head? = (p.gap ++ p.text).head? := by
        rw [← List.append_assoc, List.head?_append_of_ne_nil _ nonempty]
      by_cases empty : p.gap ++ p.text = []
      · -- Only text in markup is empty, and a brace or a tag stands behind it.
        obtain ⟨gap, text⟩ := List.append_eq_nil_iff.1 empty
        obtain ⟨-, item, -⟩ := reads
        have markup : p.goal = .markupText := by
          by_contra other
          exact Item.text_ne_nil item other text
        rw [Part.old, markup, text] at item
        have alike := (alike_new (fun q mem => sound q (List.mem_cons_of_mem _ mem)) last).head
        have dollar : (spell last (parts.map Part.new)).head? = some '$' := by
          simpa [Part.new, spell, gap, text] using head
        rw [dollar] at alike
        rcases head_of_markupText item with brace | tag
        · rw [brace] at alike
          simp [isApart] at alike
        · rw [tag] at alike
          simp [isApart] at alike
      · rw [List.map_cons, Part.new, spell, front _ empty] at head
        rw [List.map_cons, Part.old, spell, front _ empty, head]
    | name gap text quoted number =>
      cases gap with
      | cons c gap => exact .inl head
      | nil =>
        cases quoted with
        | false => exact .inr trivial
        | true =>
          rw [List.map_cons, Part.new, spell, List.nil_append, head_newName_append] at head
          simp at head

theorem head_of_bare {parts : List Part} (bare : Bare parts) (last : List Char) :
    (spell last (parts.map Part.new)).head? = some '$' := by
  cases parts with
  | nil => cases bare
  | cons part parts =>
    cases part with
    | piece p => cases bare
    | name gap text quoted number =>
      cases gap with
      | cons c gap => cases bare
      | nil =>
        cases quoted with
        | true => cases bare
        | false => exact head_newName_append false number _

theorem rest?_new {last : List Char} {newline : Bool} {part : Part} {parts : List Part}
    (sound : ∀ q ∈ part :: parts, q.Sound)
    (reads : Reads last newline ((part :: parts).map Part.old)) :
    part.new.goal.rest? (part.new.text ++ spell last (parts.map Part.new)) =
        some (spell last (parts.map Part.new)) ↔
      (part.new.goal.sticky part.new.text = true → ¬Bare parts) := by
  obtain ⟨-, item, more⟩ := reads
  have soundParts : ∀ q ∈ parts, q.Sound := fun q mem => sound q (List.mem_cons_of_mem part mem)
  have alike := alike_new soundParts last
  constructor
  · exact fun read sticky bare => not_dollar_of_sticky read sticky (head_of_bare bare last)
  · intro separate
    cases part with
    | piece p =>
      refine rest?_alike item alike fun sticky head => ?_
      rcases dollar_new soundParts more head with dollar | bare
      · exact not_dollar_of_sticky item sticky dollar
      · exact separate sticky bare
    | name gap text quoted number =>
      cases quoted with
      | true => exact rest?_quoted number _
      | false =>
        have breaks := breaks_of_private (sound _ (List.mem_cons_self ..)) item
        have sticky : Lexical.token.sticky (shortName number).toList = true := by
          rw [toList_shortName]
          rfl
        refine (rest?_shortName number _).2 ((alike.parts fun head => ?_).breaks breaks)
        rcases dollar_new soundParts more head with dollar | bare
        · exact breaks.halts.not_dollar dollar
        · exact separate sticky bare

/-! ## All items -/

theorem behindGap?_new {last : List Char} {newline : Bool} {part : Part} {parts : List Part}
    (sound : ∀ q ∈ parts, q.Sound) (reads : Reads last newline ((part :: parts).map Part.old)) :
    if part.new.goal.gapped then
      behindGap? newline (part.new.gap ++ (part.new.text ++ spell last (parts.map Part.new))) =
        some (part.new.text ++ spell last (parts.map Part.new))
    else part.new.gap = [] := by
  obtain ⟨skips, item, -⟩ := reads
  cases part with
  | piece p =>
    rw [Part.old] at skips item
    rw [Part.new]
    split at skips
    next gapped =>
      rw [if_pos gapped]
      have text := Item.text_ne_nil item (Lexical.ne_markupText gapped)
      have nonempty : p.text ++ spell last (parts.map Part.old) ≠ [] := by simp [text]
      have begins := behindGap?_begins skips nonempty
      refine behindGap?_opens skips nonempty ((alike_new sound last).append p.text).near.opens ?_
      intro c mem
      rw [List.head?_append_of_ne_nil _ text] at mem
      exact begins c (by rwa [List.head?_append_of_ne_nil _ text])
    next gapped => rwa [if_neg gapped]
  | name gap text quoted number =>
    have named : text ≠ [] := Item.text_ne_nil item (by simp [Part.old])
    have nonempty : text ++ spell last (parts.map Part.old) ≠ [] := by simp [named]
    have head := head_newName_append quoted number (spell last (parts.map Part.new))
    have opens : Opens (text ++ spell last (parts.map Part.old))
        ((newName quoted number).toList ++ spell last (parts.map Part.new)) :=
      opens_of_head head (by cases quoted <;> decide)
    exact behindGap?_opens skips nonempty opens (begins_of_head head (by cases quoted <;> decide))

/-- The items of a script stay, with one item for each new name, exactly where no new name stands
directly behind an item that it goes on. -/
theorem reads_new_iff {last : List Char} {newline : Bool} {parts : List Part}
    (sound : ∀ part ∈ parts, part.Sound) (reads : Reads last newline (parts.map Part.old)) :
    Reads last newline (parts.map Part.new) ↔ Separate parts := by
  induction parts generalizing newline with
  | nil => exact iff_of_true reads trivial
  | cons part parts ih =>
    have soundParts : ∀ q ∈ parts, q.Sound := fun q mem => sound q (List.mem_cons_of_mem part mem)
    refine (and_iff_right (behindGap?_new soundParts reads)).trans ?_
    exact and_congr (rest?_new sound reads) (ih soundParts reads.2.2)

/-! ## Scripts with new names -/

variable {text : List Char} {layout : Layout text} {program : Program}

/-- What becomes of an item: a private name gives way to a new name, which is quoted to the left of
`in`, and everything else stays. -/
inductive GivesWay (root : Node) : Piece × Span → Item → Prop where
  | stays {p : Piece} {span : Span} (other : ¬IsPrivate p) : GivesWay root (p, span) p.item
  | renamed {p : Piece} {span : Span} {place : Place} {name : String} {quoted : Bool} (number : Nat)
      {item : Item} (own : IsPrivate p) (named : NamedAt root place name span)
      (checked : quoted = true ↔ LeftOfIn root place) (new : IsNewName quoted number item) :
      GivesWay root (p, span) item

/-- A text has the items of a script with new names for its private names. -/
def Renewed (root : Node) (layout : Layout text) (out : List Char) : Prop :=
  ∃ script items, out = layout.line ++ script ∧ HasItems true script items ∧
    List.Forall₂ (GivesWay root) (rangedIn layout) items

theorem rest_of_newName {quoted quoted' : Bool} {number number' : Nat} {old new rest : List Char}
    (breaks : Breaks old) (alike : Alike old new)
    (whole : (newName quoted' number').toList ++ new = (newName quoted number).toList ++ rest)
    (taken : Lexical.token.rest? ((newName quoted number).toList ++ rest) = some rest) :
    rest = new := by
  have heads := congrArg List.head? whole
  rw [head_newName_append, head_newName_append] at heads
  obtain rfl : quoted' = quoted := by
    cases quoted' <;> cases quoted <;> simp at heads ⊢
  cases quoted' with
  | true =>
    rw [← whole, rest?_quoted] at taken
    exact (Option.some.inj taken).symm
  | false =>
    have after : Breaks rest := (rest?_shortName number rest).1 taken
    -- The longer one of the two names would leave a letter to the shorter one.
    rw [newName_unquoted, newName_unquoted, toList_shortName, toList_shortName, List.cons_append,
      List.cons_append] at whole
    rcases List.append_eq_append_iff.1 (List.cons.inj whole).2 with
      ⟨gap, longer, rfl⟩ | ⟨gap, longer, rfl⟩
    · cases gap with
      | nil => rfl
      | cons c gap =>
        have letter := isNamePart_shortLetters number c (List.mem_reverse.1 (by simp [longer]))
        have breaksNew := (alike.parts (by simpa using letter.2.1)).breaks breaks c rfl
        exact absurd letter.1 (by simp [breaksNew.1])
    · cases gap with
      | nil => rfl
      | cons c gap =>
        have letter := isNamePart_shortLetters number' c (List.mem_reverse.1 (by simp [longer]))
        exact absurd letter.1 (by simp [(after c rfl).1])

theorem new_of_given {root : Node} {uses : List Use} {x : Piece × Span} {item : Item}
    {old new rest : List Char} (given : GivesWay root x item)
    (read : x.1.goal.rest? (x.1.text ++ old) = some old) (alike : Alike old new)
    (whole : (partAt uses x).new.text ++ new = item.text ++ rest)
    (taken : item.goal.rest? (item.text ++ rest) = some rest) :
    rest = new ∧ (IsPrivate x.1 → (putAt? uses x.2).isSome = true) := by
  cases given with
  | @stays p span other =>
    rcases partAt_cases uses (p, span) with ⟨same, -⟩ | ⟨_, _, own, -⟩
    · rw [same] at whole
      exact ⟨(List.append_cancel_left whole).symm, fun own => absurd own other⟩
    · exact absurd own other
  | @renamed p span place name quoted number item own named checked new =>
    obtain rfl := new.same
    rcases partAt_cases uses (p, span) with ⟨same, -⟩ | ⟨quoted', number', -, put, same⟩
    · -- A private name that stays is no new name.
      have heads := congrArg List.head? whole
      rw [same, Part.new, List.head?_append, own.2, head_newName_append] at heads
      cases quoted <;> simp at heads
    · rw [same] at whole
      have breaks : Breaks old := breaks_of_private own.2 (own.1 ▸ read)
      exact ⟨rest_of_newName breaks alike whole taken, fun _ => by rw [put]; rfl⟩

theorem goal_of_given {root : Node} {x : Piece × Span} {item : Item} (given : GivesWay root x item) :
    item.goal = x.1.goal := by
  cases given with
  | stays other => rfl
  | renamed number own named checked new => rw [new.same, own.1]

theorem goal_partAt (uses : List Use) (x : Piece × Span) : (partAt uses x).new.goal = x.1.goal := by
  rw [← old_partAt uses x]
  cases partAt uses x <;> rfl

/-- Of a text that begins like a converted script, only the new names can be the items that private
names give way to. -/
theorem separate_of_given {root : Node} {uses : List Use} {last : List Char} {newline : Bool}
    {xs : List (Piece × Span)} {items : List Item} (given : List.Forall₂ (GivesWay root) xs items)
    (reads : Reads last newline (xs.map Prod.fst))
    (hasItems : HasItems newline (spell last ((xs.map (partAt uses)).map Part.new)) items) :
    (∀ x ∈ xs, IsPrivate x.1 → (putAt? uses x.2).isSome = true) ∧
      Separate (xs.map (partAt uses)) := by
  induction given generalizing newline with
  | nil => exact ⟨by simp, trivial⟩
  | @cons x item xs items first others ih =>
    have reads' := reads
    rw [← map_old_partsAt uses] at reads'
    have skips := behindGap?_new (sound_partsAt uses xs) reads'
    obtain ⟨-, read, more⟩ := reads
    have alike := alike_new (sound_partsAt uses xs) last
    rw [map_old_partsAt] at alike
    rw [goal_partAt, ← goal_of_given first] at skips
    obtain ⟨rest, whole, taken, behind⟩ := (hasItems_cons item.goal _ skips item.text items).1 hasItems
    rw [whole] at taken
    obtain ⟨rfl, put⟩ := new_of_given first read alike whole taken
    obtain ⟨putRest, separate⟩ := ih more behind
    refine ⟨List.forall_mem_cons.2 ⟨put, putRest⟩, ?_, separate⟩
    refine (rest?_new (sound_partsAt uses (x :: xs)) reads').1 ?_
    rw [whole, goal_partAt, ← goal_of_given first]
    exact taken

variable (program) in
/-- The grammar takes new names in the places of the private names, where these are items. -/
def TakesNames (dialect : Dialect) (layout : Layout text) : Prop :=
  Reads layout.last true ((partsIn program layout).map Part.new) →
    (Program.parse? dialect
      (layout.line ++ spell layout.last ((partsIn program layout).map Part.new))).isSome = true

theorem given_of_outside (matched : Matched layout program.root)
    (resolves : ∀ place name span, NamedAt program.root place name span →
      ∃ c, BoundTo program.root place name c)
    (outside : ∀ place name span, NamedAt program.root place name span → ¬InClassTypes place) :
    List.Forall₂ (GivesWay program.root) (rangedIn layout)
      ((partsIn program layout).map fun part => part.new.item) := by
  rw [partsIn, List.map_map, List.forall₂_map_right_iff, List.forall₂_same]
  rintro ⟨p, span⟩ mem
  rw [Function.comp]
  by_cases own : IsPrivate p
  · obtain ⟨place, name, named⟩ := (matched.listed span).1 ⟨p, mem, own⟩
    obtain ⟨c, bound⟩ := resolves place name span named
    obtain ⟨use, number, found, hn, -⟩ := (foundIn_binds program).bound place name span c named bound
      (outside place name span named)
    obtain ⟨named', -, quoted, -⟩ := mem_foundIn.1 found
    obtain ⟨-, rfl⟩ := namedAt_unique named named'
    have put := putAt?_of_found matched found hn
    have same : partAt (resolve program).uses (p, use.span) = .name p.gap p.text use.quoted number := by
      rw [partAt, put]
      exact if_pos own
    rw [same]
    exact .renamed number own named quoted (isNewName use.quoted number)
  · rcases partAt_cases (resolve program).uses (p, span) with ⟨same, -⟩ | ⟨_, _, own', -⟩
    · rw [same]
      exact .stays own
    · exact absurd own' own

/-- The new text has the items of the script with new names for its private names exactly if none of
these stands among the types of a class and no new name goes on what stands in front of it. -/
theorem renewed_iff (matched : Matched layout program.root)
    (resolves : ∀ place name span, NamedAt program.root place name span →
      ∃ c, BoundTo program.root place name c) :
    Renewed program.root layout
        (layout.line ++ spell layout.last ((partsIn program layout).map Part.new)) ↔
      (∀ place name span, NamedAt program.root place name span → ¬InClassTypes place) ∧
        Separate (partsIn program layout) := by
  have reads : Reads layout.last true ((partsIn program layout).map Part.old) :=
    map_old_partsIn program layout ▸ layout.reads
  constructor
  · rintro ⟨script, items, whole, hasItems, given⟩
    rw [← List.append_cancel_left whole] at hasItems
    have reads : Reads layout.last true ((rangedIn layout).map Prod.fst) := by
      rw [rangedIn, map_fst_ranged]
      exact layout.reads
    obtain ⟨put, separate⟩ := separate_of_given given reads hasItems
    refine ⟨fun place name span named => ?_, separate⟩
    obtain ⟨p, mem, own⟩ := (matched.listed span).2 ⟨place, name, named⟩
    obtain ⟨⟨quoted, number⟩, some⟩ := Option.isSome_iff_exists.1 (put _ mem own)
    obtain ⟨place', use, found, rfl, -⟩ := putAt?_eq_some some
    obtain ⟨named', outside, -⟩ := mem_foundIn.1 found
    exact matched.apart _ _ _ _ _ _ named' named rfl ▸ outside
  · rintro ⟨outside, separate⟩
    have whole := (reads_new_iff (sound_partsAt _ _) reads).2 separate
    exact ⟨_, _, rfl, ⟨_, _, rfl, whole, by rw [List.map_map]; rfl⟩,
      given_of_outside matched resolves outside⟩

/-- A script that parses and in which every private name resolves is converted. The new text has one
new name for each private name, quoted to the left of `in`, and all other items of the script, exactly
if no private name stands among the types of a class and no new name directly behind an item that it
goes on. It parses, too, exactly if the grammar takes the new names as well. -/
theorem convert_items {dialect : Dialect} {code : String}
    (parsed : Program.parse? dialect code.toList = some program) (layout : Layout code.toList)
    (matched : Matched layout program.root)
    (resolves : ∀ place name span, NamedAt program.root place name span →
      ∃ c, BoundTo program.root place name c) :
    ∃ conversion, convert dialect code = .ok conversion ∧
      (Renewed program.root layout conversion.code.toList ↔
        (∀ place name span, NamedAt program.root place name span → ¬InClassTypes place) ∧
          Separate (partsIn program layout)) ∧
      ((Program.parse? dialect conversion.code.toList).isSome = true ∧
          Renewed program.root layout conversion.code.toList ↔
        (∀ place name span, NamedAt program.root place name span → ¬InClassTypes place) ∧
          Separate (partsIn program layout) ∧ TakesNames program dialect layout) := by
  obtain ⟨conversion, converted, out⟩ := convert_eq_ok parsed matched
  have renewed := renewed_iff matched resolves
  have reads := reads_new_iff (sound_partsAt _ _)
    (show Reads layout.last true ((partsIn program layout).map Part.old) from
      map_old_partsIn program layout ▸ layout.reads)
  refine ⟨conversion, converted, out ▸ renewed, ?_⟩
  rw [out, renewed]
  constructor
  · rintro ⟨parses, outside, separate⟩
    exact ⟨outside, separate, fun _ => parses⟩
  · rintro ⟨outside, separate, takes⟩
    exact ⟨takes (reads.2 separate), outside, separate⟩

/-! ## A brand check, and a member directly behind a word -/

theorem matched_of_spans {root : Node} (spans : List Span)
    (listed : (namesIn root).map Prod.snd = spans)
    (pieces : ((rangedIn layout).filter fun x => IsPrivate x.1).map Prod.snd = spans)
    (apart : (spans.map Span.start).Nodup) : Matched layout root where
  listed := by
    intro span
    have inPieces : span ∈ spans ↔ ∃ p, (p, span) ∈ rangedIn layout ∧ IsPrivate p := by
      rw [← pieces]
      simp
    rw [← inPieces, ← listed]
    constructor
    · intro mem
      obtain ⟨⟨place, _⟩, inside, rfl⟩ := List.mem_map.1 mem
      exact ⟨place, namedAt_of_mem inside⟩
    · rintro ⟨place, name, named⟩
      exact List.mem_map_of_mem (mem_namesIn named)
  apart := fun _ _ _ _ _ _ => apart_of_spans listed apart

def isTypeStep : Step → Bool
  | .type _ => true
  | _ => false

theorem outside_of_names (root : Node)
    (plain : (namesIn root).all (fun x => x.1.all fun step => !isTypeStep step) = true) :
    ∀ place name span, NamedAt root place name span → ¬InClassTypes place := by
  rintro place name span named ⟨i, mem⟩
  have steps := List.all_eq_true.1 plain _ (mem_namesIn named)
  cases List.all_eq_true.1 steps _ mem

theorem bound_of_numbers
    (outside : ∀ place name span, NamedAt program.root place name span → ¬InClassTypes place)
    (numbers : (resolve program).uses.all (fun use => use.number.isSome) = true) :
    ∀ place name span, NamedAt program.root place name span →
      ∃ c, BoundTo program.root place name c := by
  classical
  intro place name span named
  let use : Use := ⟨name, span, decide (LeftOfIn program.root place),
    (binder? (bodiesOn [] program.root place) name).map fun c => numberIn program (c, name)⟩
  have found : (place, use) ∈ foundIn program :=
    mem_foundIn.2 ⟨named, outside place name span named, by simp [use], rfl⟩
  have mem : use ∈ (resolve program).uses := uses_resolve program ▸ List.mem_map_of_mem found
  obtain ⟨number, some⟩ := Option.isSome_iff_exists.1 (List.all_eq_true.1 numbers use mem)
  obtain ⟨c, bound, -⟩ := number_eq_some found some
  exact ⟨c, bound⟩

def brandLayout : Layout brand.toList where
  line := []
  pieces := [.token "" "class", .token " " "A", .token " " "\x7b", .token " " "#x", .token "" ";",
    .token " " "m", .token "" "(", .token "" "o", .token "" ")", .token " " "\x7b",
    .token " " "return", .token " " "#x", .token " " "in", .token " " "o", .token "" ";",
    .token " " "\x7d", .token " " "\x7d"]
  last := []
  whole := by decide +kernel
  opening := by decide +kernel
  reads := by decide +kernel

theorem convert_items_brand :
    Program.parse? ⟨true, false⟩ brand.toList = some brandProgram ∧
      Matched brandLayout brandProgram.root ∧
      (∀ place name span, NamedAt brandProgram.root place name span →
        ∃ c, BoundTo brandProgram.root place name c) ∧
      ∃ conversion, convert ⟨true, false⟩ brand = .ok conversion ∧
        conversion.code = "class A \x7b $a; m(o) \x7b return '$a' in o; \x7d \x7d" ∧
        (Program.parse? ⟨true, false⟩ conversion.code.toList).isSome = true ∧
        Renewed brandProgram.root brandLayout conversion.code.toList := by
  have parsed : Program.parse? ⟨true, false⟩ brand.toList = some brandProgram := by decide +kernel
  have matched : Matched brandLayout brandProgram.root :=
    matched_of_spans [⟨10, 12⟩, ⟨28, 30⟩] (by decide +kernel) (by decide +kernel)
      (by decide)
  have outside := outside_of_names brandProgram.root (by decide +kernel)
  have resolves := bound_of_numbers outside (by decide +kernel)
  have separate : Separate (partsIn brandProgram brandLayout) := by decide +kernel
  have takes : TakesNames brandProgram ⟨true, false⟩ brandLayout := fun _ => by decide +kernel
  obtain ⟨conversion, converted, -, whole⟩ := convert_items parsed brandLayout matched resolves
  obtain ⟨parses, renewed⟩ := whole.2 ⟨outside, separate, takes⟩
  have same : conversion.code = "class A \x7b $a; m(o) \x7b return '$a' in o; \x7d \x7d" := by
    obtain ⟨other, again, text⟩ := convert_eq_ok parsed matched
    obtain rfl := Except.ok.inj (again.symm.trans converted)
    apply String.toList_injective
    rw [text]
    decide +kernel
  exact ⟨parsed, matched, resolves, conversion, converted, same, parses, renewed⟩

def compared : String := "class A \x7b #x; m(a, b, c) \x7b a < b.#x > (c)++; \x7d \x7d"

def comparedLayout : Layout compared.toList where
  line := []
  pieces := [.token "" "class", .token " " "A", .token " " "\x7b", .token " " "#x", .token "" ";",
    .token " " "m", .token "" "(", .token "" "a", .token "" ",", .token " " "b", .token "" ",",
    .token " " "c", .token "" ")", .token " " "\x7b", .token " " "a", .token " " "<",
    .token " " "b", .token "" ".", .token "" "#x", .token " " ">", .token " " "(", .token "" "c",
    .token "" ")", .token "" "++", .token "" ";", .token " " "\x7d", .token " " "\x7d"]
  last := []
  whole := by decide +kernel
  opening := by decide +kernel
  reads := by decide +kernel

/-- The items of a script do not settle whether it parses: a name can be part of a type argument, and
a private name cannot. -/
example : (Program.parse? ⟨true, false⟩ compared.toList).map (fun program =>
    (decide (Separate (partsIn program comparedLayout)), (Program.parse? ⟨true, false⟩
      (spell [] ((partsIn program comparedLayout).map Part.new))).isSome)) = some (true, false) := by
  decide +kernel

def besideWord (name : String) : String := "class A \x7b static" ++ name ++ " = 1; \x7d"

def besideWordProgram : Program :=
  ⟨false, [.declare false ["A"] [.classBody [] []
    [.form .member [.privateName "x" ⟨16, 18⟩, .form .literal []]] []]]⟩

def besideWordLayout : Layout (besideWord "#x").toList where
  line := []
  pieces := [.token "" "class", .token " " "A", .token " " "\x7b", .token " " "static",
    .token "" "#x", .token " " "=", .token " " "1", .token "" ";", .token " " "\x7d"]
  last := []
  whole := by decide +kernel
  opening := by decide +kernel
  reads := by decide +kernel

/-- A new name goes on the word that stands directly in front of it: the new text has one item less,
and its member is not static. -/
theorem convert_fuses :
    Program.parse? ⟨false, false⟩ (besideWord "#x").toList = some besideWordProgram ∧
      Matched besideWordLayout besideWordProgram.root ∧
      (∀ place name span, NamedAt besideWordProgram.root place name span →
        ∃ c, BoundTo besideWordProgram.root place name c) ∧
      convert ⟨false, false⟩ (besideWord "#x") = .ok ⟨besideWord "$a", 1, 1, 1⟩ ∧
      HasItems true (besideWord "$a").toList (["class", "A", "\x7b", "static$a", "=", "1", ";",
        "\x7d"].map fun text => ⟨.token, text.toList⟩) ∧
      ¬Renewed besideWordProgram.root besideWordLayout (besideWord "$a").toList := by
  have matched : Matched besideWordLayout besideWordProgram.root :=
    matched_of_spans [⟨16, 18⟩] (by decide +kernel) (by decide +kernel) (by decide)
  have outside := outside_of_names besideWordProgram.root (by decide +kernel)
  have resolves := bound_of_numbers outside (by decide +kernel)
  have whole : (besideWord "$a").toList = besideWordLayout.line ++
      spell besideWordLayout.last ((partsIn besideWordProgram besideWordLayout).map Part.new) := by
    decide +kernel
  refine ⟨by decide +kernel, matched, resolves, by decide +kernel, ?_, ?_⟩
  · exact ⟨[.token "" "class", .token " " "A", .token " " "\x7b", .token " " "static$a",
      .token " " "=", .token " " "1", .token "" ";", .token " " "\x7d"], [], by decide +kernel,
      by decide +kernel, by decide +kernel⟩
  · rw [whole, renewed_iff matched resolves]
    exact fun both => absurd both.2 (by decide +kernel)

end BundlePrep.PrivateName
