import BundlePrep.Glob.Expand
import BundlePrep.Proofs.FileTree.Moved
import BundlePrep.Proofs.Glob.Parsing

/-!
# Patterns below directories that stand elsewhere

From a directory on, a pattern stands for the same places wherever the directory stands, as long as
none of its segments stands for what is above.
-/

set_option autoImplicit false

namespace BundlePrep.Glob

open BundlePrep.FileTree
open BundlePrep.FileTree.Path (further)

/-! ## Names -/

theorem step_extend {base : Path} (named : base.Named) (inner : List String) (name : String) :
    step (base.extend inner) name = base.extend (further inner name) := by
  rw [step, if_neg (Path.components_ne_current named inner), Path.child_extend named]

def namesOf : Option Item → List String
  | some (.directory entries) => (entries.map (·.1)).mergeSort fun a b => a ≤ b
  | _ => []

theorem namesIn_eq (tree : Tree) (directory : Path) :
    namesIn tree directory = namesOf (tree.find directory).toOption := by
  rw [namesIn]
  rcases tree.find directory with e | (content | entries) <;> rfl

theorem leadsDown_of_mem_namesOf {item : Item} {inner : List String} (proper : item.isProper = true)
    {name : String} (h : name ∈ namesOf (item.find? inner)) : Path.leadsDown name = true := by
  cases found : item.find? inner with
  | none => rw [found] at h; cases h
  | some below =>
    rw [found] at h
    obtain ⟨-, location, -, there⟩ := Item.find?_eq_some.1 found
    have inside := Item.isProper_at? proper there
    cases below with
    | file content => cases h
    | directory entries =>
      obtain ⟨entry, mem, rfl⟩ := List.mem_map.1 (List.mem_mergeSort.1 h)
      exact (Item.isProper_of_mem inside mem).1

/-! ## Lists of paths -/

def Uniform (fits : Tree → Path → Prop) (spare : Nat) (paths : Tree → Path → List Path) : Prop :=
  ∃ inners : List (List String), (∀ inner ∈ inners, Path.Inward spare inner) ∧
    ∀ tree base, fits tree base → paths tree base = inners.map base.extend

namespace Uniform

variable {fits : Tree → Path → Prop} {spare : Nat} {f g : Tree → Path → List Path}

theorem nil : Uniform fits spare fun _ _ => [] := ⟨[], by simp, fun _ _ _ => rfl⟩

theorem single {inner : List String} (inside : Path.Inward spare inner) :
    Uniform fits spare fun _ base => [base.extend inner] :=
  ⟨[inner], by simpa using inside, fun _ _ _ => rfl⟩

theorem append (hf : Uniform fits spare f) (hg : Uniform fits spare g) :
    Uniform fits spare fun tree base => f tree base ++ g tree base := by
  obtain ⟨front, inside, same⟩ := hf
  obtain ⟨behind, inside', same'⟩ := hg
  refine ⟨front ++ behind, ?_, fun tree base fit => ?_⟩
  · exact List.forall_mem_append.2 ⟨inside, inside'⟩
  · show f tree base ++ g tree base = _
    rw [same tree base fit, same' tree base fit, List.map_append]

theorem flatMap {α : Type} {as : List α} {f : α → Tree → Path → List Path}
    (each : ∀ a ∈ as, Uniform fits spare (f a)) :
    Uniform fits spare fun tree base => as.flatMap fun a => f a tree base := by
  induction as with
  | nil => exact nil
  | cons a as ih =>
    obtain ⟨own, others⟩ := List.forall_mem_cons.1 each
    exact own.append (ih others)

theorem congr (hg : Uniform fits spare g)
    (same : ∀ tree base, fits tree base → f tree base = g tree base) : Uniform fits spare f := by
  obtain ⟨inners, inside, equal⟩ := hg
  exact ⟨inners, inside, fun tree base fit => (same tree base fit).trans (equal tree base fit)⟩

theorem of_imp {fewer : Tree → Path → Prop} (h : Uniform fits spare f)
    (fit : ∀ tree base, fewer tree base → fits tree base) : Uniform fewer spare f := by
  obtain ⟨inners, inside, equal⟩ := h
  exact ⟨inners, inside, fun tree base also => equal tree base (fit tree base also)⟩

theorem filter {test : Tree → Path → Bool} {keep : List String → Bool} (h : Uniform fits spare f)
    (same : ∀ tree base inner, fits tree base → Path.Inward spare inner →
      test tree (base.extend inner) = keep inner) :
    Uniform fits spare fun tree base => (f tree base).filter (test tree) := by
  obtain ⟨inners, inside, equal⟩ := h
  refine ⟨inners.filter keep, fun inner mem => inside inner (List.mem_filter.1 mem).1,
    fun tree base fit => ?_⟩
  show (f tree base).filter (test tree) = _
  rw [equal tree base fit, List.filter_map]
  exact congrArg _ (List.filter_congr fun inner mem => same tree base inner fit (inside inner mem))

end Uniform

section

variable {item : Item} {spare : Nat}

/-! ## Patterns -/

structure Tame (p : Pattern) : Prop where
  inward : ".." ∉ specialNames p
  literal : ∀ name, p.literal? = some name → '/' ∉ name.toList ∧ name ≠ ".."

theorem mem_of_mem_dropRecursive {p : Pattern} {ps : List Pattern} (h : p ∈ dropRecursive ps) :
    p ∈ ps := by
  fun_induction dropRecursive ps with
  | case1 q ps recursive ih => exact List.mem_cons_of_mem _ (ih h)
  | case2 q ps other => exact h
  | case3 => cases h

theorem length_dropRecursive (ps : List Pattern) : (dropRecursive ps).length ≤ ps.length := by
  fun_induction dropRecursive ps with
  | case1 q ps recursive ih => exact ih.trans (Nat.le_succ _)
  | case2 q ps other => exact Nat.le_refl _
  | case3 => exact Nat.le_refl _

def Settles (item : Item) (spare fuel : Nat) : Prop :=
  ∀ (ps : List Pattern) (inner : List String) (used : Nat), (∀ p ∈ ps, Tame p) →
    Path.Inward used inner → used + ps.length ≤ spare →
    Uniform (Houses item spare) spare fun tree base => below tree fuel ps (base.extend inner)

section

variable {fuel used : Nat} {p : Pattern} {ps : List Pattern} {inner : List String} {name : String}

theorem Settles.found (h : Settles item spare fuel) (tame : ∀ p ∈ ps, Tame p)
    (inside : Path.Inward used inner) (room : used + ps.length ≤ spare) :
    Uniform (Houses item spare) spare fun tree base =>
      if ps.isEmpty then [base.extend inner] else below tree fuel ps (base.extend inner) := by
  by_cases last : ps.isEmpty = true
  · simp only [last, if_true]
    exact .single (inside.mono (by omega))
  · simp only [last]
    exact h ps inner used tame inside room

theorem Settles.matched (h : Settles item spare fuel) (p : Pattern) (name : String)
    (tame : ∀ p ∈ ps, Tame p) (inside : Path.Inward used inner) (room : used + ps.length ≤ spare) :
    Uniform (Houses item spare) spare fun tree base =>
      below.matched tree fuel p ps (base.extend inner) name := by
  simp only [below.matched]
  by_cases own : p.accepts name = true
  · simp only [own, Bool.not_true, Bool.false_eq_true, if_false]
    exact h.found tame inside room
  · simp only [own, Bool.not_false, if_true]
    exact .nil

theorem Settles.literal (h : Settles item spare fuel) (tame : Tame p) (others : ∀ p ∈ ps, Tame p)
    (inside : Path.Inward used inner) (room : used + 1 + ps.length ≤ spare)
    (literal : p.literal? = some name) :
    Uniform (Houses item spare) spare fun tree base =>
      below tree (fuel + 1) (p :: ps) (base.extend inner) := by
  obtain ⟨clean, inward⟩ := tame.literal name literal
  have next := inside.passed inward
  generalize there : (if name = "." then (item.find? inner).any Item.isDirectory
    else (item.find? (further inner name)).isSome) = goes
  have chosen : Uniform (Houses item spare) spare fun tree base => if goes = true then
      (if ps.isEmpty then [base.extend (further inner name)]
        else below tree fuel ps (base.extend (further inner name)))
      else [] := by
    cases goes
    · exact .nil
    · exact h.found others next room
  refine chosen.congr fun tree base fit => ?_
  have path : (if (base.extend inner).components = [.current] then Path.ofText name
      else (base.extend inner).join (Path.ofText name)) =
        base.extend (further inner name) := by
    rw [if_neg (Path.components_ne_current fit.named inner), Path.ofText_of_not_mem clean,
      Path.join_extend fit.named (Path.isAbsolute_singleton name)]
    rfl
  have goes : (if (decide (name = ".") || decide (name = "..")) = true
      then tree.isDirectory (base.extend inner)
      else tree.exists? (base.extend (further inner name))) = goes := by
    rw [← there, Tree.isDirectory, Tree.exists?, fit.find (inside.mono (by omega)),
      fit.find (next.mono (by omega))]
    simp [inward]
  simp only [below, literal]
  rw [path, goes]

def foundAt (tree : Tree) (fuel : Nat) (p : Pattern) (ps : List Pattern) (path : Path)
    (name : String) (isDirectory : Bool) : List Path :=
  if p.isRecursive then
    if isDirectory then
      match dropRecursive ps with
      | [] => path :: below tree fuel (p :: dropRecursive ps) path
      | q :: qs => below.matched tree fuel q qs path name ++
          below tree fuel (p :: dropRecursive ps) path
    else
      match dropRecursive ps with
      | [] => []
      | q :: qs => below.matched tree fuel q qs path name
  else below.matched tree fuel p ps path name

theorem Settles.listed (h : Settles item spare fuel) (proper : item.isProper = true) (tame : Tame p)
    (others : ∀ p ∈ ps, Tame p) (inside : Path.Inward used inner)
    (room : used + 1 + ps.length ≤ spare) (literal : p.literal? = none) :
    Uniform (Houses item spare) spare fun tree base =>
      below tree (fuel + 1) (p :: ps) (base.extend inner) := by
  have special : Uniform (Houses item spare) spare fun tree base =>
      (specialNames p).flatMap fun name =>
        if ps.isEmpty then [base.extend (further inner name)]
        else below tree fuel ps (base.extend (further inner name)) := by
    refine .flatMap fun name mem => h.found others (inside.passed ?_) room
    rintro rfl
    exact tame.inward mem
  have listed : Uniform (Houses item spare) spare fun tree base =>
      (namesOf (item.find? inner)).flatMap fun name =>
        foundAt tree fuel p ps (base.extend (further inner name)) name
          ((item.find? (further inner name)).any Item.isDirectory) := by
    refine .flatMap fun name mem => ?_
    have next := inside.name (leadsDown_of_mem_namesOf proper mem)
    have drops := length_dropRecursive ps
    have left : ∀ q ∈ dropRecursive ps, Tame q := fun q mem =>
      others q (mem_of_mem_dropRecursive mem)
    have deeper := h (p :: dropRecursive ps) _ used (List.forall_mem_cons.2 ⟨tame, left⟩) next (by
      rw [List.length_cons]
      omega)
    by_cases recursive : p.isRecursive = true
    · simp only [foundAt, recursive, if_true]
      rcases rest : dropRecursive ps with _ | ⟨q, qs⟩ <;> rw [rest] at left deeper drops
      · split
        · exact (Uniform.single (next.mono (by omega))).append deeper
        · exact .nil
      · rw [List.length_cons] at drops
        have also := h.matched q name (List.forall_mem_cons.1 left).2 next (by omega)
        split
        · exact also.append deeper
        · exact also
    · simp only [foundAt, recursive]
      exact h.matched p name others next (by omega)
  refine (special.append listed).congr fun tree base fit => ?_
  have within : Path.Inward spare inner := inside.mono (by omega)
  simp only [below, literal, Path.child_extend fit.named, step_extend fit.named, namesIn_eq,
    fit.find within]
  congr 1
  refine List.flatMap_congr fun name mem => ?_
  have next := inside.name (leadsDown_of_mem_namesOf proper mem)
  have directory : tree.isDirectory (base.extend (further inner name)) =
      (item.find? (further inner name)).any Item.isDirectory := by
    rw [Tree.isDirectory, fit.find (next.mono (by omega))]
  rw [foundAt]
  cases dropRecursive ps <;> rw [directory]

theorem settles (proper : item.isProper = true) (fuel : Nat) : Settles item spare fuel := by
  induction fuel with
  | zero =>
    intro ps inner used tame inside room
    simp only [below]
    exact .nil
  | succ fuel ih =>
    intro ps inner used tame inside room
    cases ps with
    | nil =>
      simp only [below]
      exact .nil
    | cons p ps =>
      obtain ⟨own, others⟩ := List.forall_mem_cons.1 tame
      rw [List.length_cons] at room
      cases literal : p.literal? with
      | some name => exact ih.literal own others inside (by omega) literal
      | none => exact ih.listed proper own others inside (by omega) literal

end

end

end BundlePrep.Glob
