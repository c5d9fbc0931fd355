import BundlePrep.FileTree.Path
import BundlePrep.Proofs.FileTree.Joined

/-!
# Paths below others

The part of a path behind another one has the components that follow those of the other, and none of
its segments in front is passed over.
-/

set_option autoImplicit false

namespace BundlePrep.FileTree.Path

/-- The segments that count. -/
def names (segments : List String) : List String := segments.filter (!passed ·)

theorem names_dropWhile (ss : List String) : names (ss.dropWhile passed) = names ss := by
  induction ss with
  | nil => rfl
  | cons s ss ih =>
    rw [List.dropWhile_cons]
    split
    next skipped => rw [ih, names, names, List.filter_cons_of_neg (by simp [skipped])]
    next => rfl

theorem names_trimEnd (ss : List String) : names (trimEnd ss) = names ss := by
  rw [trimEnd, names, List.filter_reverse, ← names, names_dropWhile, names, List.filter_reverse,
    List.reverse_reverse, names]

theorem names_dropComponents (n : Nat) (ss : List String) :
    names (dropComponents n ss) = (names ss).drop n := by
  fun_induction dropComponents n ss with
  | case1 ss => exact names_dropWhile ss
  | case2 n => rfl
  | case3 n s ss skipped ih => rw [ih, names, names, List.filter_cons_of_neg (by simp [skipped])]
  | case4 n s ss named ih =>
    rw [ih, names, names, List.filter_cons_of_pos (by simpa using named), List.drop_succ_cons]

theorem passed_of_head?_dropComponents {n : Nat} {ss : List String} {s : String}
    (h : (dropComponents n ss).head? = some s) : passed s = false := by
  fun_induction dropComponents n ss with
  | case1 ss => simpa [h] using List.head?_dropWhile_not passed ss
  | case2 n => cases h
  | case3 n s ss skipped ih => exact ih h
  | case4 n s ss named ih => exact ih h

def Plain (p : Path) : Prop := p.segments = [""] ∨ ∃ s ss, p.segments = s :: ss ∧ passed s = false

namespace Plain

theorem relative {p : Path} (h : p.Plain) : p.isAbsolute = false := by
  obtain ⟨segments⟩ := p
  rcases h with rfl | ⟨s, ss, rfl, named⟩
  · exact isAbsolute_singleton ""
  · refine isAbsolute_cons_of_ne ?_ ss
    rintro rfl
    cases named

theorem ne_nil {p : Path} (h : p.Plain) : p.segments ≠ [] := by
  rcases h with same | ⟨s, ss, same, -⟩ <;> simp [same]

theorem components {p : Path} (h : p.Plain) :
    p.components = (names p.segments).map componentOf := by
  obtain ⟨segments⟩ := p
  have parts : (Path.mk segments).parts = ([], segments) := by
    rcases h with rfl | ⟨s, ss, rfl, named⟩
    · rfl
    · rw [Path.parts]
      split
      next whole => rw [(List.cons.inj whole).1] at named; cases named
      next whole => rw [(List.cons.inj whole).1] at named; cases named
      next => rfl
  rw [Path.components, parts]
  rfl

end Plain

theorem plain_ofParts {ss : List String} (named : ∀ s, ss.head? = some s → passed s = false) :
    (ofParts [] ss).Plain ∧ names (ofParts [] ss).segments = names ss := by
  cases ss with
  | nil => exact ⟨.inl rfl, rfl⟩
  | cons s ss => exact ⟨.inr ⟨s, ss, rfl, named s rfl⟩, rfl⟩

theorem trimEnd_prefix (ss : List String) : trimEnd ss <+: ss := by
  rw [trimEnd, ← List.reverse_suffix, List.reverse_reverse]
  exact List.dropWhile_suffix _

theorem head?_trimEnd {ss : List String} {s : String} (h : (trimEnd ss).head? = some s) :
    ss.head? = some s := by
  obtain ⟨rest, same⟩ := trimEnd_prefix ss
  rw [← same, List.head?_append, h]
  rfl

theorem drop_firstComponent (first : List String) (n : Nat) :
    (firstComponent first).drop (n + 1) = [] := by
  unfold firstComponent
  split <;> simp

theorem plain_below {file root inner : Path} (rooted : root.components ≠ [])
    (h : file.below? root = some inner) :
    inner.Plain ∧ file.components = root.components ++ inner.components := by
  rw [below?] at h
  split at h
  · cases h
  next begins =>
    have begins : root.components <+: file.components := by
      simpa [startsWith, List.isPrefixOf_iff_prefix] using begins
    obtain ⟨n, length⟩ := Nat.exists_eq_succ_of_ne_zero (mt List.length_eq_zero_iff.1 rooted)
    simp only [length] at h
    set consumed := n + 1 - (firstComponent file.parts.1).length
    have plain := @plain_ofParts (trimEnd (dropComponents consumed file.parts.2)) fun s head =>
      passed_of_head?_dropComponents (head?_trimEnd head)
    obtain rfl : ofParts [] (trimEnd (dropComponents consumed file.parts.2)) = inner :=
      Option.some.inj h
    refine ⟨plain.1, ?_⟩
    rw [plain.1.components, plain.2, names_trimEnd, names_dropComponents]
    obtain ⟨behind, whole⟩ := begins
    have dropped : file.components.drop (n + 1) =
        ((names file.parts.2).drop consumed).map componentOf := by
      rw [Path.components, List.drop_append, drop_firstComponent, List.nil_append, ← List.map_drop]
      rfl
    have follows : file.components.drop (n + 1) = behind := by
      rw [← whole, ← Nat.succ_eq_add_one, ← length, List.drop_left]
    rw [← dropped, follows, whole]

end BundlePrep.FileTree.Path

namespace BundlePrep.FileTree

open FileTree.Path

def lead (location : Location) : List Component → Location
  | [] => location
  | .root :: cs => lead [] cs
  | .current :: cs => lead location cs
  | .parent :: cs => lead location.dropLast cs
  | .normal name :: cs => lead (location ++ [name]) cs

theorem lead_componentOf (location : Location) (ss : List String) :
    lead location ((names ss).map componentOf) = walk location ss := by
  induction ss generalizing location with
  | nil => rfl
  | cons s ss ih =>
    rw [walk, names]
    by_cases skipped : passed s = true
    · rw [if_pos skipped, List.filter_cons_of_neg (by simp [skipped])]
      exact ih location
    · rw [if_neg skipped, List.filter_cons_of_pos (by simpa using skipped), List.map_cons,
        componentOf]
      split
      · exact ih _
      · exact ih _

theorem target_eq_lead (tree : Tree) (p : Path) :
    tree.target p = lead tree.working p.components := by
  obtain ⟨segments⟩ := p
  rw [Tree.target, Tree.startOf, Path.components]
  rcases (Path.mk segments).parts_cases with ⟨ss, some, same, parts⟩ | ⟨ss, same, parts⟩ | ⟨parts, single⟩
  · obtain rfl : segments = "" :: ss := same
    rw [isAbsolute_cons_of_ne_nil some, parts, walk, if_pos (by rfl), if_pos rfl,
      ← lead_componentOf]
    rfl
  · obtain rfl : segments = "." :: ss := same
    rw [isAbsolute_cons_of_ne (by decide), parts, walk, if_pos (by rfl), ← lead_componentOf]
    rfl
  · have relative : (Path.mk segments).isAbsolute = false := by
      rw [isAbsolute, parts]
      rfl
    rw [relative, parts, ← lead_componentOf]
    rfl

end BundlePrep.FileTree
