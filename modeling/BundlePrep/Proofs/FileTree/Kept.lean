import BundlePrep.Proofs.FileTree.History
import BundlePrep.Proofs.FileTree.Proper

/-!
# Proper trees stay proper

Files and directories are made under names that lead down, and take the place of those that have their
names. So a tree that is proper stays so, whatever is written.
-/

set_option autoImplicit false

namespace BundlePrep.FileTree

namespace Item

theorem mem_setEntry {name : String} {item : Item} {entries : List (String × Item)}
    {entry : String × Item} (h : entry ∈ setEntry name item entries) :
    entry = (name, item) ∨ entry ∈ entries := by
  induction entries with
  | nil => exact .inl (List.mem_singleton.1 h)
  | cons other entries ih =>
    obtain ⟨n, i⟩ := other
    rw [setEntry] at h
    split at h
    next own =>
      rcases List.mem_cons.1 h with rfl | mem
      · exact .inl (by rw [own])
      · exact .inr (List.mem_cons_of_mem _ mem)
    next =>
      rcases List.mem_cons.1 h with rfl | mem
      · exact .inr (List.mem_cons_self ..)
      · exact (ih mem).imp_right (List.mem_cons_of_mem _)

theorem areProper_setEntry {name : String} {item : Item} {entries : List (String × Item)}
    (proper : areProper entries = true) (down : Path.leadsDown name = true)
    (own : item.isProper = true) : areProper (setEntry name item entries) = true := by
  induction entries with
  | nil => exact areProper_cons.2 ⟨down, by simp, own, rfl⟩
  | cons entry entries ih =>
    obtain ⟨n, i⟩ := entry
    obtain ⟨leads, apart, inner, rest⟩ := areProper_cons.1 proper
    rw [setEntry]
    split
    next => exact areProper_cons.2 ⟨leads, apart, own, rest⟩
    next other =>
      refine areProper_cons.2 ⟨leads, fun entry mem => ?_, inner, ih rest⟩
      rcases mem_setEntry mem with rfl | mem
      · exact Ne.symm other
      · exact apart entry mem

theorem isProper_set {item new : Item} {location : Location} (proper : item.isProper = true)
    (own : new.isProper = true) (down : ∀ name ∈ location.getLast?, Path.leadsDown name = true) :
    (item.set location new).isProper = true := by
  fun_induction Item.set item location new with
  | case1 => exact own
  | case2 entries name new => exact areProper_setEntry proper (down name rfl) own
  | case3 entries name location new more below found ih =>
    obtain ⟨front, back, rfl, -⟩ := List.lookup_eq_some_iff.1 found
    obtain ⟨leads, inner⟩ := isProper_of_mem proper (by simp : (name, below) ∈ _)
    refine areProper_setEntry proper leads (ih inner own fun last mem => down last ?_)
    rwa [List.getLast?_cons_of_ne_nil fun none => more none]
  | case4 => exact proper
  | case5 => rfl

end Item

namespace Tree

theorem proper_setAt {tree : Tree} {above : Location} {name : String} {item : Item}
    (proper : tree.Proper) (down : Path.leadsDown name = true) (own : item.isProper = true) :
    (tree.setAt (above ++ [name]) item).Proper :=
  Item.isProper_set proper own (by simpa using down)

theorem proper_write {tree after : Tree} {p : Path} {content : ByteArray} (proper : tree.Proper)
    (h : tree.write p content = .ok after) : after.Proper := by
  obtain ⟨way, above, last, -, -, named, parent, -, -, -, -, rfl⟩ := write_eq_ok h
  exact proper_setAt proper (Path.leadsDown_iff.2 ⟨named, parent⟩) rfl

theorem proper_makeDirectory {tree after : Tree} {p : Path} (proper : tree.Proper)
    (h : tree.makeDirectory p = .ok after) : after.Proper := by
  rw [makeDirectory] at h
  cases step : tree.lastStep? p with
  | error e => simp [step, bind, Except.bind] at h
  | ok step? =>
    cases step? with
    | none => simp [step, bind, Except.bind] at h
    | some step' =>
      obtain ⟨above, last⟩ := step'
      simp only [step, bind, Except.bind] at h
      split_ifs at h with taken
      obtain ⟨-, full, -⟩ := lastStep?_eq_some step
      simp only [Bool.or_eq_true, decide_eq_true_eq, not_or] at taken
      rw [← Except.ok.inj h]
      exact proper_setAt proper (by simp [Path.leadsDown, Path.passed, full, taken.1]) rfl

theorem proper_descend {tree : Tree} (proper : tree.Proper) (paths : List Path) :
    (makeDirectories.descend tree paths).2.Proper := by
  fun_induction makeDirectories.descend tree paths with
  | case1 tree => exact proper
  | case2 tree p ps after made ih => exact ih (proper_makeDirectory proper made)
  | case3 tree p ps e made there ih => exact ih proper
  | case4 tree p ps e made there => exact proper

theorem proper_makeDirectories {tree : Tree} (proper : tree.Proper) (p : Path) :
    (tree.makeDirectories p).2.Proper := by
  rw [makeDirectories]
  generalize ancestors p = paths
  generalize ([] : List Path) = waiting
  fun_induction makeDirectories.climb tree waiting paths with
  | case1 waiting => exact proper_descend proper waiting
  | case2 waiting p ps after made => exact proper_descend (proper_makeDirectory proper made) waiting
  | case3 waiting p ps made ih => exact ih
  | case4 waiting p ps e made there => exact proper_descend proper waiting
  | case5 waiting p ps e made there => exact proper

end Tree

end BundlePrep.FileTree
