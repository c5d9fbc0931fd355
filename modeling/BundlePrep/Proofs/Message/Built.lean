import BundlePrep.Proofs.Message.Changes

/-!
# The items of built code

The scan puts a number for a placeholder, and the word for nothing for a message behind it, wherever
their quotes stand. Whole tokens give way exactly if a token begins in each of these places: behind a
backslash inside of a longer text it does not. The other items of the code then stay, unless one goes
on with what is put directly behind it, or on what is put directly in front of it.
-/

set_option autoImplicit false

namespace BundlePrep.Message

open BundlePrep.Script BundlePrep.Text

/-- The parts of a script are its pieces, and what gives way in them is what gives way in its code. -/
structure Tiled {code : List Char} (layout : Layout code) (numbers : Numbers) (build : Build)
    (tiles : List Tile) : Prop where
  pieces : tiles.flatMap Tile.olds = layout.pieces
  sound : ∀ tile ∈ tiles, tile.Sound
  changes : Portion.patches layout.line (tiles.flatMap Tile.portions) = changes numbers build code

/-! ## Code with numbers -/

theorem Tiled.code {code : List Char} {layout : Layout code} {numbers : Numbers} {build : Build}
    {tiles : List Tile} (h : Tiled layout numbers build tiles) :
    (inlineNumbers numbers build code).code =
      layout.line ++ spell layout.last (tiles.map Tile.new) := by
  let portions := (segments code).flatMap (Segment.portions numbers build)
  have whole := Portion.joined_patches [] [] portions
  rw [old_segments, flatMap_segments, List.nil_append, List.append_nil] at whole
  have tiled := Portion.joined_patches layout.line layout.last (tiles.flatMap Tile.portions)
  rw [old_tiles, h.pieces, ← layout.whole, h.changes] at tiled
  -- Behind the last text that gives way stands the same text in both.
  have behind : Portion.behind [] [] portions =
      Portion.behind layout.line layout.last (tiles.flatMap Tile.portions) :=
    joined_cancel (whole.trans tiled.symm)
  have result := substituted_patches [] [] portions
  rw [new_segments, List.nil_append, List.append_nil] at result
  rw [inlineNumbers_eq, scanned, ← result, behind]
  have tiles' := substituted_patches layout.line layout.last (tiles.flatMap Tile.portions)
  rw [h.changes, new_tiles] at tiles'
  exact tiles'

/-! ## Where something is put -/

/-- Where the texts that give way begin, with what stands in front of each. -/
def places (front : List Char) : List Patch → List (List Char)
  | [] => []
  | p :: ps => (front ++ p.before) :: places (front ++ (p.before ++ p.removed)) ps

def opensToken (p : Piece) (ps : List Piece) : Bool :=
  p.goal == .token && (p.text != ['\x60'] || ps.head?.any (·.goal == .template))

/-- Where the tokens of some pieces begin. -/
def beginnings (front : List Char) : List Piece → List (List Char)
  | [] => []
  | p :: ps =>
    (if opensToken p ps then [front ++ p.gap] else []) ++ beginnings (front ++ (p.gap ++ p.text)) ps

theorem length_le_of_mem_places {front place : List Char} {ps : List Patch}
    (h : place ∈ places front ps) : front.length ≤ place.length := by
  induction ps generalizing front with
  | nil => cases h
  | cons p ps ih =>
    rcases List.mem_cons.1 h with rfl | mem
    · simp
    · have more := ih mem
      simp only [List.length_append] at more
      omega

theorem exists_of_mem_beginnings {front place : List Char} {ps : List Piece}
    (h : place ∈ beginnings front ps) : ∃ before p more, ps = before ++ p :: more ∧
      place = front ++ spell p.gap before ∧ opensToken p more = true := by
  induction ps generalizing front with
  | nil => cases h
  | cons p ps ih =>
    rcases List.mem_append.1 h with first | mem
    · split at first
      next token =>
        obtain rfl := List.mem_singleton.1 first
        exact ⟨[], p, ps, rfl, rfl, token⟩
      next => cases first
    · obtain ⟨before, q, more, rfl, rfl, token⟩ := ih mem
      exact ⟨p :: before, q, more, rfl, by simp [spell], token⟩

theorem mem_beginnings_behind {last front place : List Char} {newline : Bool}
    {before more : List Piece} (reads : Reads last newline (before ++ more))
    (h : place ∈ beginnings front (before ++ more))
    (behind : (front ++ spell [] before).length ≤ place.length) :
    place ∈ beginnings (front ++ spell [] before) more := by
  induction before generalizing front newline with
  | nil => simpa [spell] using h
  | cons p before ih =>
    obtain ⟨-, item, reads⟩ := reads
    have shape : front ++ spell [] (p :: before) = (front ++ (p.gap ++ p.text)) ++ spell [] before := by
      simp [spell]
    rw [shape] at behind ⊢
    refine ih reads ((List.mem_append.1 h).resolve_left fun first => ?_) behind
    split at first
    next token =>
      obtain rfl := List.mem_singleton.1 first
      have goal : p.goal = .token := by simpa using (Bool.and_eq_true_iff.1 token).1
      have text := List.length_pos_iff.2 (Item.text_ne_nil item (by simp [goal]))
      simp only [List.length_append] at behind
      omega
    next => cases first

theorem mem_beginnings_append {front place : List Char} {before more : List Piece}
    (h : place ∈ beginnings (front ++ spell [] before) more) :
    place ∈ beginnings front (before ++ more) := by
  induction before generalizing front with
  | nil => simpa [spell] using h
  | cons p before ih =>
    refine List.mem_append_right _ (ih ?_)
    simpa [spell] using h

theorem pieces_of_readable {last : List Char} {newline : Bool} {p : Piece} {ps : List Piece}
    {q : Quoted} {tail : List Char} (h : Readable q) (reads : Reads last newline (p :: ps))
    (token : opensToken p ps = true) (whole : p.text ++ spell last ps = q.text ++ tail) :
    ∃ more, p :: ps = ⟨p.gap, .token, q.first⟩ :: (q.more ++ more) ∧ spell last more = tail := by
  obtain ⟨gap, goal, text⟩ := p
  obtain ⟨-, item, reads⟩ := reads
  obtain ⟨own, template⟩ := Bool.and_eq_true_iff.1 token
  obtain rfl : goal = .token := by simpa using own
  dsimp only at item whole template ⊢
  by_cases back : q.quote = '\x60'
  · have characters : spell last ps = q.body ++ '\x60' :: tail := by
      rw [whole, q.text_append, back] at item
      exact (Option.some.inj item).symm
    obtain rfl : text = ['\x60'] := by
      rw [q.text_append, back, characters] at whole
      exact List.append_cancel_right
        (show text ++ (q.body ++ '\x60' :: tail) = ['\x60'] ++ (q.body ++ '\x60' :: tail) from whole)
    cases ps with
    | nil => simp at template
    | cons r ps =>
      obtain ⟨gap', goal', text'⟩ := r
      obtain rfl : goal' = .template := by simpa using template
      obtain ⟨rfl, item', -⟩ := reads
      have body : text' ++ spell last ps = q.body ++ '\x60' :: tail := characters
      rw [body] at item'
      obtain ⟨stretch, found, behind⟩ := Option.map_eq_some_iff.1 item'
      obtain rfl : spell last ps = tail :=
        behind.symm.trans (scanTemplate_body (back ▸ h.body) (h.whole back) found)
      obtain rfl : text' = q.body ++ ['\x60'] :=
        List.append_cancel_right (body.trans (by simp))
      exact ⟨ps, by simp [Quoted.first, Quoted.more, back], rfl⟩
  · have plain : q.quote = '"' ∨ q.quote = '\x27' := by
      rcases isQuote_cases h.quote with single | double | same
      · exact .inr single
      · exact .inl double
      · exact absurd same back
    have ends : spell last ps = tail := rest?_readable h plain (whole ▸ item)
    rw [ends] at whole
    obtain rfl := List.append_cancel_right whole
    exact ⟨ps, by simp [Quoted.first, Quoted.more, back], ends⟩

/-! ## The parts of a script -/

theorem exists_reads {last : List Char} {newline : Bool} {before more : List Piece}
    (reads : Reads last newline (before ++ more)) : ∃ newline', Reads last newline' more := by
  cases before with
  | nil => exact ⟨newline, reads⟩
  | cons p before => exact ⟨false, Reads.behind reads⟩

theorem exists_tiles {last front line tail : List Char} {newline : Bool} {ps : List Patch}
    {pieces : List Piece} (reads : Reads last newline pieces)
    (whole : line ++ spell last pieces = joined tail ps)
    (readable : ∀ p ∈ ps, ∃ (q : Quoted) (put : Put),
      p.removed = q.text ∧ p.content = put.text ∧ Readable q)
    (begun : ∀ place ∈ places front ps, place ∈ beginnings (front ++ line) pieces) :
    ∃ tiles : List Tile, tiles.flatMap Tile.olds = pieces ∧ (∀ tile ∈ tiles, tile.Sound) ∧
      Portion.patches line (tiles.flatMap Tile.portions) = ps := by
  have soundPieces (ps : List Piece) : ∀ tile ∈ ps.map Tile.piece, tile.Sound := by
    intro tile mem
    obtain ⟨p, -, rfl⟩ := List.mem_map.1 mem
    trivial
  induction ps generalizing front line newline pieces with
  | nil =>
    have all := patches_pieces line pieces []
    rw [List.append_nil] at all
    exact ⟨pieces.map Tile.piece, olds_pieces pieces, soundPieces pieces, all⟩
  | cons c cs ih =>
    obtain ⟨kept, removed, content⟩ := c
    obtain ⟨q, put, rfl, rfl, own⟩ := readable _ (List.mem_cons_self ..)
    obtain ⟨before, p, behind, rfl, place, token⟩ :=
      exists_of_mem_beginnings (begun _ (List.mem_cons_self ..))
    rw [List.append_assoc, List.append_cancel_left_eq] at place
    dsimp only at place
    subst place
    -- The pieces behind those that stay begin with the ones that the text is made of.
    have cut : p.text ++ spell last behind = q.text ++ joined tail cs := by
      have split : spell last (before ++ p :: behind) =
          spell p.gap before ++ (p.text ++ spell last behind) := by
        rw [spell_append, spell, spell_tail]
      rw [split, joined, List.append_assoc, List.append_cancel_left_eq,
        List.append_cancel_left_eq] at whole
      exact whole
    obtain ⟨newline', readsBehind⟩ := exists_reads reads
    obtain ⟨more, same, rest⟩ := pieces_of_readable own readsBehind token cut
    rw [same] at reads readsBehind begun ⊢
    have front' : front ++ line ++ spell [] (before ++ ⟨p.gap, .token, q.first⟩ :: q.more) =
        front ++ (line ++ spell p.gap before ++ q.text) := by
      have quoted := spell_quoted p.gap q [] []
      rw [List.append_nil] at quoted
      rw [spell_append, quoted, spell_tail]
      simp [spell]
    have further : ∀ place ∈ places (front ++ (line ++ spell p.gap before ++ q.text)) cs,
        place ∈ beginnings (front ++ (line ++ spell p.gap before ++ q.text) ++ []) more := by
      intro place mem
      have inside := begun place (List.mem_cons_of_mem _ mem)
      rw [← List.cons_append, ← List.append_assoc] at inside reads
      rw [List.append_nil, ← front']
      exact mem_beginnings_behind reads inside (front' ▸ length_le_of_mem_places mem)
    obtain ⟨tiles, olds, sound, patches⟩ := ih (Reads.behind readsBehind)
      (by rw [List.nil_append, rest]) (fun p mem => readable p (List.mem_cons_of_mem _ mem)) further
    refine ⟨before.map Tile.piece ++ .change p.gap q put :: tiles, ?_, ?_, ?_⟩
    · rw [List.flatMap_append, olds_pieces, List.flatMap_cons, olds]
      rfl
    · intro tile mem
      rcases List.mem_append.1 mem with mem | mem
      · exact soundPieces before tile mem
      · rcases List.mem_cons.1 mem with rfl | mem
        · exact own.quote
        · exact sound tile mem
    · rw [List.flatMap_append, patches_pieces, List.flatMap_cons, Tile.portions, List.cons_append,
        List.cons_append, List.nil_append, Portion.patches, Portion.patches, patches, List.append_assoc,
        ← spell_tail, List.nil_append]

theorem opensToken_quoted (gap : List Char) (q : Quoted) (rest : List Piece) :
    opensToken ⟨gap, .token, q.first⟩ (q.more ++ rest) = true := by
  by_cases back : q.quote = '\x60'
  · simp [opensToken, Quoted.first, Quoted.more, back]
  · have longer : q.text ≠ ['\x60'] := by simp [Quoted.text]
    simp [opensToken, Quoted.first, back, longer]

theorem mem_beginnings_of_tiles (front line : List Char) (tiles : List Tile) :
    ∀ place ∈ places front (Portion.patches line (tiles.flatMap Tile.portions)),
      place ∈ beginnings (front ++ line) (tiles.flatMap Tile.olds) := by
  induction tiles generalizing front line with
  | nil => exact nofun
  | cons tile tiles ih =>
    intro place mem
    cases tile with
    | piece p =>
      have further := ih front (line ++ p.gap ++ p.text) place mem
      rw [List.flatMap_cons, Tile.olds, List.singleton_append]
      exact List.mem_append_right _ (by simpa using further)
    | change gap q put =>
      rw [List.flatMap_cons, Tile.olds, List.cons_append]
      rcases List.mem_cons.1 mem with rfl | mem
      · refine List.mem_append_left _ ?_
        rw [if_pos (opensToken_quoted gap q _)]
        simp
      · have further := ih (front ++ (line ++ gap ++ q.text)) [] place mem
        refine @mem_beginnings_append _ _ (⟨gap, .token, q.first⟩ :: q.more) _ ?_
        have quoted := spell_quoted gap q [] []
        rw [List.append_nil, spell] at quoted
        rw [quoted]
        simpa using further

theorem exists_tiled_iff {code : List Char} (layout : Layout code) (numbers : Numbers)
    (build : Build) :
    (∃ tiles, Tiled layout numbers build tiles) ↔
      ∀ place ∈ places [] (changes numbers build code),
        place ∈ beginnings layout.line layout.pieces := by
  constructor
  · rintro ⟨tiles, tiled⟩
    have begun := mem_beginnings_of_tiles [] layout.line tiles
    rwa [tiled.changes, tiled.pieces] at begun
  · intro begun
    have whole := Portion.joined_patches [] [] ((segments code).flatMap (Segment.portions numbers build))
    rw [old_segments, flatMap_segments, List.nil_append, List.append_nil] at whole
    obtain ⟨tiles, pieces, sound, same⟩ := exists_tiles layout.reads (layout.whole.symm.trans whole.symm)
      (fun p mem => readable_of_mem_changes mem) begun
    exact ⟨tiles, pieces, sound, same⟩

/-- The texts of a script that give way are whole tokens exactly if each of them begins with a token.
Then a number or the word for nothing is put for each, and the built code has these and the other items
of the script exactly if no item goes on with what is put directly behind it, or on what is put
directly in front of it. -/
theorem inlined_items {code : List Char} (layout : Layout code) (numbers : Numbers) (build : Build) :
    ((∃ tiles, Tiled layout numbers build tiles) ↔
      ∀ place ∈ places [] (changes numbers build code),
        place ∈ beginnings layout.line layout.pieces) ∧
    ∀ tiles, Tiled layout numbers build tiles →
      (inlineNumbers numbers build code).code =
          layout.line ++ spell layout.last (tiles.map Tile.new) ∧
        (∀ gap q put, .change gap q put ∈ tiles →
          (Tile.new (.change gap q put)).item.token? = some put.token) ∧
        (HasItems true (spell layout.last (tiles.map Tile.new))
            (tiles.map fun tile => tile.new.item) ↔ Separate layout.last tiles) := by
  refine ⟨exists_tiled_iff layout numbers build, fun tiles tiled => ⟨tiled.code, ?_, ?_⟩⟩
  · exact fun _ _ put _ => token?_put put
  · exact hasItems_new tiled.sound (tiled.pieces ▸ layout.reads)

/-! ## A text in a template, and quotes inside of a text -/

def oneNumber : Numbers := [("%%NLS:m#k%%", 0)]

def oneLiteral : Quoted := ⟨'"', "%%NLS:m#k%%".toList⟩

def templateCall : String := "f(" ++ String.ofList oneLiteral.text ++ ", \x60x\x60);"

def templateTiles : List Tile :=
  [.piece (.token "" "f"), .piece (.token "" "("), .change [] oneLiteral (.number 0),
    .piece (.token "" ","), .change [' '] ⟨'\x60', ['x']⟩ .null, .piece (.token "" ")"),
    .piece (.token "" ";")]

def layoutOf (code : String) (tiles : List Tile)
    (whole : code.toList = spell [] (tiles.flatMap Tile.olds))
    (opening : (skipInterpreter (unmarked code.toList)).1 = spell [] (tiles.flatMap Tile.olds))
    (reads : Reads [] true (tiles.flatMap Tile.olds)) : Layout code.toList :=
  ⟨[], tiles.flatMap Tile.olds, [], whole, opening, reads⟩

theorem inlined_items_template :
    ∃ layout : Layout templateCall.toList, Tiled layout oneNumber .production templateTiles ∧
      (∀ place ∈ places [] (changes oneNumber .production templateCall.toList),
        place ∈ beginnings layout.line layout.pieces) ∧
      (inlineNumbers oneNumber .production templateCall.toList).code = "f(0, null);".toList ∧
      HasItems true "f(0, null);".toList (templateTiles.map fun tile => tile.new.item) := by
  let layout := layoutOf templateCall templateTiles (by decide +kernel) (by decide +kernel)
    (by decide +kernel)
  have tiled : Tiled layout oneNumber .production templateTiles :=
    ⟨rfl, by decide, by decide +kernel⟩
  obtain ⟨begun, items⟩ := inlined_items layout oneNumber .production
  obtain ⟨code, -, same⟩ := items templateTiles tiled
  have text : layout.line ++ spell layout.last (templateTiles.map Tile.new) =
      "f(0, null);".toList := by decide +kernel
  exact ⟨layout, tiled, begun.1 ⟨_, tiled⟩, code.trans text, text ▸ same.2 (by decide +kernel)⟩

def escapedQuote : String := "x = \"a\\\"%%NLS:m#k%%\";"

def escapedPieces : List Piece :=
  [.token "" "x", .token " " "=", .token " " "\"a\\\"%%NLS:m#k%%\"", .token "" ";"]

def returned : String := "return" ++ String.ofList oneLiteral.text ++ ";"

def returnedTiles : List Tile :=
  [.piece (.token "" "return"), .change [] oneLiteral (.number 0), .piece (.token "" ";")]

/-- A number is put for the end of a text that has a quote behind a backslash, and a number goes on
with the word in front of it. -/
theorem quote_in_text_gives_way :
    (∃ layout : Layout escapedQuote.toList, layout.pieces = escapedPieces ∧
      inlineNumbers oneNumber .preserving escapedQuote.toList = ⟨"x = \"a\\0;".toList, 1, 0, []⟩ ∧
      ¬∃ tiles, Tiled layout oneNumber .preserving tiles) ∧
    ∃ layout : Layout returned.toList, Tiled layout oneNumber .preserving returnedTiles ∧
      inlineNumbers oneNumber .preserving returned.toList = ⟨"return0;".toList, 1, 0, []⟩ ∧
      ¬HasItems true "return0;".toList (returnedTiles.map fun tile => tile.new.item) := by
  constructor
  · let layout : Layout escapedQuote.toList :=
      ⟨[], escapedPieces, [], by decide +kernel, by decide +kernel, by decide +kernel⟩
    refine ⟨layout, rfl, by decide +kernel, ?_⟩
    rw [exists_tiled_iff]
    have apart : ¬∀ place ∈ places [] (changes oneNumber .preserving escapedQuote.toList),
        place ∈ beginnings [] escapedPieces := by decide +kernel
    exact apart
  · let layout := layoutOf returned returnedTiles (by decide +kernel) (by decide +kernel)
      (by decide +kernel)
    refine ⟨layout, ⟨rfl, by decide, by decide +kernel⟩, by decide +kernel, ?_⟩
    have text : spell [] (returnedTiles.map Tile.new) = "return0;".toList := by decide +kernel
    have items := @hasItems_new [] true returnedTiles (by decide) layout.reads
    rw [← text, items]
    decide +kernel

end BundlePrep.Message
