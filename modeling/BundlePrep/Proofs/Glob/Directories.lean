import BundlePrep.Proofs.Glob.Expanding

/-!
# Patterns behind the path of a directory

Behind a path without wildcards and brackets a pattern is expanded from the directory to which this
path leads: the names in it are read as patterns that stand for themselves.
-/

set_option autoImplicit false

namespace BundlePrep.FileTree

namespace Path

def Leads (lead : List String) : Prop := lead = [] ∨ lead = [""]

section

variable {lead ns : List String}

theorem way_of_names (some : ns ≠ []) (down : ∀ n ∈ ns, leadsDown n = true) :
    (mk (lead ++ ns)).way = lead ++ ns := by
  obtain ⟨front, n, rfl⟩ := List.eq_nil_or_concat ns |>.resolve_left some
  have full : n ≠ "" := by
    rintro rfl
    exact absurd (down "" (by simp)) (by decide)
  show (if (lead ++ front.concat n).getLast? = Option.some "" then _ else _) = _
  rw [List.concat_eq_append, ← List.append_assoc, List.getLast?_concat,
    if_neg (by simpa using full)]

theorem named_mk (leads : Leads lead) (some : ns ≠ [])
    (names : ∀ n ∈ ns, leadsDown n = true ∧ '/' ∉ n.toList) : (mk (lead ++ ns)).Named := by
  refine ⟨ns, some, names, ?_⟩
  rw [way_of_names some fun n mem => (names n mem).1]
  rcases leads with rfl | rfl
  · exact .inl rfl
  · exact .inr rfl

end

end Path

namespace Tree

theorem exists_front {tree : Tree} {base : Path} {item : Item} {lead ns behind : List String}
    (named : base.Named) (found : tree.find base = .ok item) (leads : Path.Leads lead)
    (some : ns ≠ []) (names : ∀ n ∈ ns, Path.leadsDown n = true ∧ '/' ∉ n.toList)
    (way : base.way = lead ++ ns ++ behind) : tree.exists? ⟨lead ++ ns⟩ = true := by
  have front := Path.named_mk leads some names
  have own : (Path.mk (lead ++ ns)).way = lead ++ ns :=
    Path.way_of_names some fun n mem => (names n mem).1
  have absolute : (Path.mk (lead ++ ns)).isAbsolute = base.isAbsolute := by
    obtain ⟨n, ns, rfl⟩ := List.exists_cons_of_ne_nil some
    rw [front.isAbsolute, named.isAbsolute, own, way]
    cases lead <;> rfl
  have nonempty : lead ++ ns ≠ [] := by simp [some]
  have full : lead ++ ns ≠ [""] := by
    intro single
    have last := congrArg List.getLast? single
    rw [List.getLast?_append_of_ne_nil lead some, List.getLast?_singleton] at last
    exact absurd (names "" (List.mem_of_getLast? last)).1 (by decide)
  obtain ⟨slash, segments⟩ : ∃ slash, base.segments = lead ++ ns ++ (behind ++ slash) := by
    rcases base.segments_eq_way with same | same
    · exact ⟨[], by rw [same, way, List.append_nil]⟩
    · exact ⟨[""], by rw [same, way, List.append_assoc (lead ++ ns)]⟩
  by_cases last : behind ++ slash = []
  · have same : (Path.mk (lead ++ ns)) = base := by
      rw [last, List.append_nil] at segments
      rw [← segments]
    rw [exists?, same, found]
    rfl
  · have directory : tree.isDirectory ⟨lead ++ ns⟩ = true :=
      isDirectory_of_front (find_eq_ok.1 found).1 nonempty last segments absolute (.inl rfl) full
    rw [isDirectory] at directory
    rw [exists?]
    cases there : (tree.find ⟨lead ++ ns⟩).toOption with
    | none =>
      rw [there] at directory
      cases directory
    | some below => rfl

end Tree

end BundlePrep.FileTree

namespace BundlePrep.Glob

open BundlePrep.FileTree

def plainPattern (name : String) : Pattern := ⟨name.toList.map .char⟩

theorem literal?_plainPattern (name : String) : (plainPattern name).literal? = some name := by
  have chars (cs : List Char) : (cs.map Token.char).mapM Token.char? = some cs := by
    induction cs with
    | nil => rfl
    | cons c cs ih => simp [List.mapM_cons, ih, Token.char?]
  rw [Pattern.literal?, plainPattern, chars]
  exact congrArg some String.ofList_toList

section

variable {tree : Tree} {fuel : Nat} {ps : List Pattern}

theorem below_name {directory : Path} {name : String} (down : Path.leadsDown name = true)
    (clean : '/' ∉ name.toList) (more : ps ≠ [])
    (there : tree.exists? (step directory name) = true) :
    below tree (fuel + 1) (plainPattern name :: ps) directory =
      below tree fuel ps (step directory name) := by
  obtain ⟨counts, inward⟩ := Path.leadsDown_iff.1 down
  have dot : name ≠ "." := by
    rintro rfl
    cases counts
  have path : (if directory.components = [.current] then Path.ofText name
      else directory.join (Path.ofText name)) = step directory name := by
    rw [Path.ofText_of_not_mem clean, step]
    rfl
  have last : ps.isEmpty = false := by simpa using more
  simp only [below, literal?_plainPattern]
  rw [path]
  simp [dot, inward, there, last]

theorem below_names {front : Path} {done ns : List String} (named : front.Named)
    (down : ∀ n ∈ done ++ ns, Path.leadsDown n = true ∧ '/' ∉ n.toList) (more : ps ≠ [])
    (there : ∀ first n rest, ns = first ++ n :: rest →
      tree.exists? (front.extend (done ++ (first ++ [n]))) = true) :
    below tree (fuel + ns.length) (ns.map plainPattern ++ ps) (front.extend done) =
      below tree fuel ps (front.extend (done ++ ns)) := by
  induction ns generalizing done with
  | nil => rw [List.append_nil]; rfl
  | cons n ns ih =>
    have here := there [] n ns rfl
    have way : (FileTree.Path.mk done).way = done := by
      cases done with
      | nil => rfl
      | cons d done =>
        exact @Path.way_of_names [] (d :: done) (List.cons_ne_nil d done) fun m mem =>
          (down m (List.mem_append_left _ mem)).1
    have next : step (front.extend done) n = front.extend (done ++ [n]) := by
      rw [step_extend named, Path.further, way]
    obtain ⟨leads, clean⟩ := down n (by simp)
    rw [List.map_cons, List.cons_append, List.length_cons, ← Nat.add_assoc,
      below_name leads clean (by simp [more]) (next ▸ here), next, ih]
    · rw [List.append_assoc]
      rfl
    · rwa [List.append_assoc]
    · intro first m rest whole
      have there := there (n :: first) m rest (by rw [whole]; rfl)
      rwa [List.append_assoc]

def startOf (absolute : Bool) : Path := if absolute then ⟨["", ""]⟩ else ⟨["."]⟩

theorem below_base {base : Path} {item : Item} {lead ns : List String} (named : base.Named)
    (found : tree.find base = .ok item) (leads : Path.Leads lead) (some : ns ≠ [])
    (names : ∀ n ∈ ns, Path.leadsDown n = true ∧ '/' ∉ n.toList) (way : base.way = lead ++ ns)
    (more : ps ≠ []) :
    below tree (fuel + ns.length) (ns.map plainPattern ++ ps) (startOf base.isAbsolute) =
      below tree fuel ps (base.extend []) := by
  obtain ⟨n, ns, rfl⟩ := List.exists_cons_of_ne_nil some
  obtain ⟨own, others⟩ := List.forall_mem_cons.1 names
  have front : (FileTree.Path.mk (lead ++ [n])).Named :=
    Path.named_mk leads (List.cons_ne_nil n []) (by simpa using own)
  have frontWay : (FileTree.Path.mk (lead ++ [n])).way = lead ++ [n] :=
    Path.way_of_names (List.cons_ne_nil n []) (by simpa using own.1)
  have first : step (startOf base.isAbsolute) n = (FileTree.Path.mk (lead ++ [n])).extend [] := by
    rw [named.isAbsolute, way, FileTree.Path.extend, frontWay, List.append_nil]
    rcases leads with rfl | rfl
    · have full : n ≠ "" := by
        rintro rfl
        exact absurd own.1 (by decide)
      simp [full, startOf, step, Path.components, Path.parts, Path.firstComponent]
    · have rooted : (FileTree.Path.mk ["", ""]).components ≠ [.current] := by decide
      show step ⟨["", ""]⟩ n = _
      rw [step, if_neg rooted, Path.child, Path.join_eq (Path.isAbsolute_singleton n)]
      rfl
  have there (front rest : List String) (whole : ns = front ++ rest) :
      tree.exists? ((FileTree.Path.mk (lead ++ [n])).extend front) = true := by
    have names : ∀ m ∈ n :: front, Path.leadsDown m = true ∧ '/' ∉ m.toList := fun m mem =>
      names m (List.cons_subset_cons n (whole ▸ List.subset_append_left front rest) mem)
    have split : base.way = lead ++ n :: front ++ rest := by
      rw [way, whole, List.append_assoc, List.cons_append]
    have passes := Tree.exists_front named found leads (List.cons_ne_nil n front) names split
    rw [FileTree.Path.extend, frontWay, List.append_assoc]
    exact passes
  have whole : (FileTree.Path.mk (lead ++ [n])).extend ns = base.extend [] := by
    rw [FileTree.Path.extend, FileTree.Path.extend, frontWay, way, List.append_nil, List.append_assoc]
    rfl
  have passes := @below_names tree fuel ps _ [] ns front others more fun front m rest whole =>
    there (front ++ [m]) rest (by simp [whole])
  rw [List.map_cons, List.cons_append, List.length_cons, ← Nat.add_assoc,
    below_name own.1 own.2 (by simp [more]) (first ▸ there [] ns rfl), first, passes,
    List.nil_append, whole]

theorem isOk_parse {front text : String} (plain : ∀ c ∈ front.toList, IsPlainChar c) :
    (Pattern.parse (front ++ "/" ++ text)).isOk = (Pattern.parse text).isOk := by
  have read (text : String) :
      (Pattern.parse text).isOk = (readTokens 0 none [] text.toList).isOk := by
    rw [Pattern.parse]
    cases readTokens 0 none [] text.toList <;> rfl
  have slashed : ∀ c ∈ front.toList ++ ['/'], IsPlainChar c := by
    simpa [or_imp, forall_and] using ⟨plain, (by decide : IsPlainChar '/')⟩
  obtain ⟨position, same⟩ := readTokens_append slashed 0 none [] text.toList
  have whole : (front ++ "/" ++ text).toList = front.toList ++ ['/'] ++ text.toList := by simp
  rw [read, read, whole, same]
  exact isOk_readTokens (by simp) text.toList

end

/-! ## The directories that a pattern behind a path stands for -/

/-- The patterns of the segments of a text, if they can be read. -/
def patternsOf? (text : String) : Option (List Pattern) :=
  (SegmentPatterns.parse text).toOption.map (·.patterns)

theorem segmentsOf_append (front : List String) {segments : List String} (some : segments ≠ []) :
    segmentsOf (front ++ segments) = front ++ segmentsOf segments :=
  Path.way_append front some

def behindRoot (p : Path) : List String := if p.isAbsolute then p.segments.tail else p.segments

theorem toOption_parse (text : String) : (SegmentPatterns.parse text).toOption =
    if (Pattern.parse text).isOk then
      ((segmentsOf (behindRoot (.ofText text))).mapM Pattern.parse).toOption.map
        (SegmentPatterns.mk (startOf (Path.ofText text).isAbsolute))
    else none := by
  rw [SegmentPatterns.parse, behindRoot]
  cases Pattern.parse text with
  | error e => rfl
  | ok p =>
    refine Eq.trans ?_ (if_pos rfl).symm
    show (if (Path.ofText text).isAbsolute = true then _ else _ : Except _ _).toOption = _
    split_ifs with absolute
    · rw [absolute]
      cases (segmentsOf (Path.ofText text).segments.tail).mapM Pattern.parse <;> rfl
    · rw [Bool.eq_false_iff.2 absolute]
      cases (segmentsOf (Path.ofText text).segments).mapM Pattern.parse <;> rfl

theorem patternsOf?_eq {text : String} (relative : (Path.ofText text).isAbsolute = false) :
    patternsOf? text = if (Pattern.parse text).isOk then
      ((segmentsOf (Path.ofText text).segments).mapM Pattern.parse).toOption else none := by
  have behind : behindRoot (.ofText text) = (Path.ofText text).segments := by
    rw [behindRoot, relative]
    rfl
  rw [patternsOf?, toOption_parse, behind]
  split_ifs
  · rw [Option.map_map]
    exact Option.map_id'
  · rfl

theorem mapM_parse_plain {ns : List String} (plain : ∀ n ∈ ns, ∀ c ∈ n.toList, IsPlainChar c) :
    ns.mapM Pattern.parse = .ok (ns.map plainPattern) := by
  induction ns with
  | nil => rfl
  | cons n ns ih =>
    obtain ⟨own, others⟩ := List.forall_mem_cons.1 plain
    rw [List.mapM_cons, parse_plain own, ih others]
    rfl

section

variable {base : Path} {lead ns : List String} {text : String}

theorem parse_join (named : base.Named) (leads : Path.Leads lead) (some : ns ≠ [])
    (names : ∀ n ∈ ns, Path.leadsDown n = true ∧ '/' ∉ n.toList) (way : base.way = lead ++ ns)
    (plain : ∀ c ∈ base.text.toList, IsPlainChar c)
    (relative : (Path.ofText text).isAbsolute = false) :
    (SegmentPatterns.parse (base.join (.ofText text)).text).toOption =
      (patternsOf? text).map fun ps => ⟨startOf base.isAbsolute, ns.map plainPattern ++ ps⟩ := by
  have segments := Path.ofText_ne_nil text
  have plainWay : ∀ c ∈ (FileTree.Path.mk base.way).text.toList, IsPlainChar c := by
    intro c mem
    apply plain
    rcases named.text_way.2 with own | own <;> rw [own] <;> simp [mem]
  have whole : (base.join (.ofText text)).text =
      (FileTree.Path.mk base.way).text ++ "/" ++ text := by
    rw [Path.join_eq relative, Path.text_append named.way_ne_nil segments, Path.text_ofText]
  have path : Path.ofText (base.join (.ofText text)).text =
      base.extend (Path.ofText text).segments := by
    rw [Path.join_eq relative, Path.ofText_text (by simp [segments])]
    · rfl
    · intro s mem
      rcases List.mem_append.1 (way ▸ mem) with mem | mem
      · rcases List.mem_append.1 mem with mem | mem
        · rcases leads with rfl | rfl
          · cases mem
          · rw [List.mem_singleton.1 mem]
            exact List.not_mem_nil
        · exact (names s mem).2
      · exact Path.not_mem_of_mem_ofText mem
  have read : ns.mapM Pattern.parse = .ok (ns.map plainPattern) :=
    mapM_parse_plain fun n mem c char =>
      plainWay c (Path.mem_text (by rw [way]; exact List.mem_append_right lead mem) char)
  have behind : behindRoot (base.extend (Path.ofText text).segments) =
      ns ++ (Path.ofText text).segments := by
    rw [behindRoot, Path.isAbsolute_extend named, named.isAbsolute, FileTree.Path.extend, way]
    obtain ⟨n, ns, rfl⟩ := List.exists_cons_of_ne_nil some
    rcases leads with rfl | rfl
    · have full : n ≠ "" := by
        rintro rfl
        exact absurd (names "" (List.mem_cons_self ..)).1 (by decide)
      simp [full]
    · rfl
  have isOk := @isOk_parse _ text plainWay
  rw [patternsOf?_eq relative, toOption_parse, path, behind, Path.isAbsolute_extend named,
    segmentsOf_append ns segments, List.mapM_append, read, whole, isOk]
  by_cases ok : (Pattern.parse text).isOk = true
  · rw [if_pos ok, if_pos ok]
    cases (segmentsOf (Path.ofText text).segments).mapM Pattern.parse <;> rfl
  · rw [if_neg ok, if_neg ok]
    rfl

theorem ne_nil_of_patternsOf? {ps : List Pattern} (relative : (Path.ofText text).isAbsolute = false)
    (wild : hasWildcard text = true) (read : patternsOf? text = Option.some ps) : ps ≠ [] := by
  have segments : segmentsOf (Path.ofText text).segments ≠ [] := by
    intro none
    have whole : (Path.ofText text).segments = [""] := by
      rcases (Path.ofText text).segments_eq_way with same | same
      · exact absurd (same.trans none) (Path.ofText_ne_nil text)
      · exact same.trans (congrArg (· ++ [""]) none)
    have empty : text = "" := by
      rw [← Path.text_ofText text, Path.text, whole]
      rfl
    rw [empty] at wild
    cases wild
  obtain ⟨s, ss, whole⟩ := List.exists_cons_of_ne_nil segments
  rw [patternsOf?_eq relative, whole, List.mapM_cons] at read
  rintro rfl
  split_ifs at read
  cases first : Pattern.parse s with
  | error e => rw [first] at read; cases read
  | ok p =>
    rw [first] at read
    cases others : ss.mapM Pattern.parse with
    | error e => rw [others] at read; cases read
    | ok ps => rw [others] at read; cases read

theorem directories_join {tree : Tree} {item : Item} (named : base.Named)
    (found : tree.find base = .ok item) (plain : ∀ c ∈ base.text.toList, IsPlainChar c)
    (relative : (Path.ofText text).isAbsolute = false) (wild : hasWildcard text = true) :
    (directories tree (base.join (.ofText text)).text).toOption = (patternsOf? text).map fun ps =>
      (below tree (pathLimit + ps.length) ps (base.extend [])).filter tree.isDirectory := by
  obtain ⟨ns, some, names, way⟩ := id named
  obtain ⟨lead, leads, way⟩ : ∃ lead, Path.Leads lead ∧ base.way = lead ++ ns := by
    rcases way with way | way
    · exact ⟨[], .inl rfl, way⟩
    · exact ⟨[""], .inr rfl, way⟩
  have parse := parse_join named leads some names way plain relative
  rw [directories]
  cases read : patternsOf? text with
  | none =>
    rw [read] at parse
    cases whole : SegmentPatterns.parse (base.join (.ofText text)).text with
    | error e => rfl
    | ok s => rw [whole] at parse; cases parse
  | some ps =>
    have more := ne_nil_of_patternsOf? relative wild read
    rw [read, Option.map_some] at parse
    have fuel : pathLimit + (ns.map plainPattern ++ ps).length =
        pathLimit + ps.length + ns.length := by
      rw [List.length_append, List.length_map]
      omega
    rw [toOption_eq_some.1 parse, Option.map_some,
      ← below_base named found leads some names way more, ← fuel]
    rfl

end

end BundlePrep.Glob
