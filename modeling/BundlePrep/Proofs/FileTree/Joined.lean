import BundlePrep.Proofs.FileTree.Places

/-!
# Paths that are put together

A relative path behind another one leads on from where that one leads. Names that lead down are added
to a location as they are.
-/

set_option autoImplicit false

namespace BundlePrep.FileTree

namespace Path

/-- The segments of a path without an empty one at the end. -/
def way (p : Path) : List String :=
  if p.segments.getLast? = some "" then p.segments.dropLast else p.segments

theorem join_eq {base p : Path} (relative : p.isAbsolute = false) :
    base.join p = ⟨base.way ++ p.segments⟩ := by
  rw [join, if_neg (by simp [relative]), way]
  rcases List.eq_nil_or_concat base.segments with none | ⟨front, last, segments⟩
  · simp [none]
  · rw [segments]
    by_cases empty : last = "" <;> simp [empty]

theorem segments_eq_way (p : Path) : p.segments = p.way ∨ p.segments = p.way ++ [""] := by
  rw [way]
  split
  next slash =>
    obtain ⟨front, same⟩ := List.getLast?_eq_some_iff.1 slash
    exact .inr (by rw [same, List.dropLast_concat])
  next => exact .inl rfl

theorem isAbsolute_cons_cons (s t : String) (ss : List String) :
    (Path.mk (s :: t :: ss)).isAbsolute = (s == "") := by
  by_cases empty : s = ""
  · subst empty
    rfl
  · rw [isAbsolute, parts, beq_eq_false_iff_ne.2 empty]
    split
    next whole => exact absurd (List.cons.inj whole).1 empty
    next whole =>
      obtain rfl := (List.cons.inj whole).1
      rfl
    next => rfl

theorem isAbsolute_singleton (s : String) : (Path.mk [s]).isAbsolute = false := by
  rw [isAbsolute, parts]
  split
  next whole => cases whole
  next whole =>
    obtain rfl := (List.cons.inj whole).1
    rfl
  next => rfl

theorem isAbsolute_cons_of_ne {s : String} (named : s ≠ "") (ss : List String) :
    (Path.mk (s :: ss)).isAbsolute = false := by
  cases ss with
  | nil => exact isAbsolute_singleton s
  | cons t ss => rw [isAbsolute_cons_cons, beq_eq_false_iff_ne.2 named]

theorem isAbsolute_cons_of_ne_nil {ss : List String} (some : ss ≠ []) :
    (Path.mk ("" :: ss)).isAbsolute = true := by
  obtain ⟨t, ts, rfl⟩ := List.exists_cons_of_ne_nil some
  rw [isAbsolute_cons_cons, beq_self_eq_true]

theorem parts_cases (p : Path) : (∃ ss, ss ≠ [] ∧ p.segments = "" :: ss ∧ p.parts = ([""], ss)) ∨
    (∃ ss, p.segments = "." :: ss ∧ p.parts = (["."], ss)) ∨
    p.parts = ([], p.segments) ∧ ∀ s ss, p.segments = s :: ss → s = "" → ss = [] := by
  obtain ⟨segments⟩ := p
  rw [parts]
  split
  next s ss same => exact .inl ⟨s :: ss, List.cons_ne_nil _ _, same, rfl⟩
  next ss same => exact .inr (.inl ⟨ss, same, rfl⟩)
  next single dotted =>
    refine .inr (.inr ⟨rfl, fun s ss same empty => ?_⟩)
    subst empty
    cases ss with
    | nil => rfl
    | cons t ss => exact absurd same (single t ss)

theorem isAbsolute_join {base p : Path} (relative : p.isAbsolute = false)
    (some : p.segments ≠ []) : (base.join p).isAbsolute = base.isAbsolute := by
  obtain ⟨base⟩ := base
  obtain ⟨segments⟩ := p
  obtain ⟨t, ts, rfl⟩ := List.exists_cons_of_ne_nil some
  rw [join_eq relative]
  rcases base with - | ⟨b, - | ⟨c, bs⟩⟩
  · exact relative
  · by_cases empty : b = ""
    · subst empty
      exact relative
    · rw [way, if_neg (by simpa using empty), List.singleton_append, isAbsolute_cons_cons]
      rw [isAbsolute_singleton, beq_eq_false_iff_ne.2 empty]
  · have front : ∃ more, (Path.mk (b :: c :: bs)).way = b :: more := by
      rw [way]
      split
      · exact ⟨_, rfl⟩
      · exact ⟨_, rfl⟩
    obtain ⟨more, front⟩ := front
    rw [front, isAbsolute_cons_cons, List.cons_append]
    cases more <;> exact isAbsolute_cons_cons ..

/-- A name that leads down. -/
def leadsDown (name : String) : Bool := !passed name && name != ".."

theorem leadsDown_iff {name : String} :
    leadsDown name = true ↔ passed name = false ∧ name ≠ ".." := by
  simp [leadsDown]

/-- A path with names behind it. -/
def descend (path : Path) (names : List String) : Path := names.foldl child path

theorem isAbsolute_child (base : Path) (name : String) :
    (base.child name).isAbsolute = base.isAbsolute :=
  isAbsolute_join (isAbsolute_singleton name) (by simp)

theorem segments_child (base : Path) (name : String) :
    (base.child name).segments = base.way ++ [name] := by
  rw [child, join_eq (isAbsolute_singleton name)]

theorem fileName?_child (base : Path) {name : String} (down : leadsDown name = true) :
    (base.child name).fileName? = some name := by
  obtain ⟨named, parent⟩ := leadsDown_iff.1 down
  have ends {ss : List String} (segments : ∃ front, ss = front ++ [name]) (first : List Component) :
      (first ++ (ss.filter (!passed ·)).map componentOf).getLast? = some (.normal name) := by
    obtain ⟨front, rfl⟩ := segments
    rw [List.filter_append, List.filter_cons_of_pos (by simp [named]), List.filter_nil,
      List.map_append, ← List.append_assoc, List.map_singleton, List.getLast?_concat, componentOf,
      if_neg parent]
  have last : (base.child name).segments.getLast? = some name := by
    rw [segments_child, List.getLast?_concat]
  have behind {s : String} {ss : List String} (same : (base.child name).segments = s :: ss)
      (skipped : passed s = true) : ∃ front, ss = front ++ [name] := by
    rw [same] at last
    by_cases none : ss = []
    · have own : s = name := by simpa [none] using last
      rw [← own, skipped] at named
      cases named
    · rwa [List.getLast?_cons_of_ne_nil none, List.getLast?_eq_some_iff] at last
  have components : (base.child name).components.getLast? = some (.normal name) := by
    rw [components]
    rcases (base.child name).parts_cases with ⟨ss, -, same, parts⟩ | ⟨ss, same, parts⟩ | ⟨parts, -⟩
    · rw [parts]
      exact ends (behind same rfl) _
    · rw [parts]
      exact ends (behind same rfl) _
    · rw [parts]
      exact ends (List.getLast?_eq_some_iff.1 last) _
  rw [fileName?, components]

theorem isAbsolute_descend (path : Path) (names : List String) :
    (descend path names).isAbsolute = path.isAbsolute := by
  induction names generalizing path with
  | nil => rfl
  | cons name names ih => exact (ih _).trans (isAbsolute_child path name)

theorem segments_descend (path : Path) {name : String} {names : List String}
    (down : ∀ n ∈ name :: names, leadsDown n = true) :
    (descend path (name :: names)).segments = path.way ++ name :: names := by
  induction names generalizing path name with
  | nil => exact segments_child path name
  | cons other names ih =>
    obtain ⟨own, rest⟩ := List.forall_mem_cons.1 down
    have named : name ≠ "" := by
      rintro rfl
      exact absurd own (by decide)
    have way : (path.child name).way = path.way ++ [name] := by
      rw [Path.way, segments_child, List.getLast?_concat, if_neg (by simpa using named)]
    show (descend (path.child name) (other :: names)).segments = _
    rw [ih _ rest, way, List.append_assoc, List.singleton_append]

end Path

theorem walk_eq_append {location : Location} {ss : List String} (inward : ".." ∉ ss) :
    walk location ss = location ++ ss.filter (!Path.passed ·) := by
  induction ss generalizing location with
  | nil => simp [walk]
  | cons s ss ih =>
    obtain ⟨own, rest⟩ := List.ne_and_not_mem_of_not_mem_cons inward
    rw [walk]
    split
    next passed => rw [ih rest, List.filter_cons_of_neg (by simp [passed])]
    next named =>
      rw [if_neg own.symm, ih rest, List.filter_cons_of_pos (by simpa using named),
        List.append_assoc, List.singleton_append]

theorem walk_name (location : Location) {name : String} (down : Path.leadsDown name = true) :
    walk location [name] = location ++ [name] := by
  obtain ⟨named, parent⟩ := Path.leadsDown_iff.1 down
  rw [walk_eq_append (by simpa using parent.symm), List.filter_cons_of_pos (by simp [named])]
  rfl

namespace Tree

theorem target_eq_way (tree : Tree) (p : Path) : tree.target p = walk (tree.startOf p) p.way := by
  rw [target]
  rcases p.segments_eq_way with same | slash
  · rw [same]
  · rw [slash, walk_append]
    rfl

theorem target_join (tree : Tree) {base p : Path} (relative : p.isAbsolute = false)
    (some : p.segments ≠ []) :
    tree.target (base.join p) = walk (tree.target base) p.segments := by
  rw [target, startOf, Path.isAbsolute_join relative some, Path.join_eq relative, walk_append,
    target_eq_way]
  rfl

theorem target_child (tree : Tree) (base : Path) {name : String}
    (down : Path.leadsDown name = true) :
    tree.target (base.child name) = tree.target base ++ [name] := by
  rw [Path.child, target_join tree (Path.isAbsolute_singleton name) (by simp), walk_name _ down]

theorem target_descend (tree : Tree) (path : Path) {names : List String}
    (down : ∀ name ∈ names, Path.leadsDown name = true) :
    tree.target (Path.descend path names) = tree.target path ++ names := by
  induction names generalizing path with
  | nil => exact (List.append_nil _).symm
  | cons name names ih =>
    obtain ⟨own, rest⟩ := List.forall_mem_cons.1 down
    show tree.target (Path.descend (path.child name) names) = _
    rw [ih _ rest, target_child tree path own, List.append_assoc, List.singleton_append]

theorem follow_way {tree : Tree} {start place : Location} {p : Path}
    (h : tree.follow start p.segments = .ok place) : tree.follow start p.way = .ok place := by
  rcases p.segments_eq_way with same | slash
  · rwa [← same]
  · rw [slash, follow_append] at h
    cases followed : tree.follow start p.way with
    | error e => rw [followed] at h; cases h
    | ok q =>
      rw [followed] at h
      exact congrArg _ (follow_eq_walk h).symm

end Tree

end BundlePrep.FileTree
