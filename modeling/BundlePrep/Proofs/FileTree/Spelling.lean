import BundlePrep.Proofs.FileTree.Rewriting

/-!
# How paths are spelled

A text is cut at its slashes, and put together again from what it is cut into.
-/

set_option autoImplicit false

namespace BundlePrep.FileTree.Path

theorem cut_slash (cs : List Char) : cut ('/' :: cs) = [] :: cut cs := rfl

theorem cut_cons {c : Char} (other : c ≠ '/') (cs : List Char) :
    ∃ s ss, cut cs = s :: ss ∧ cut (c :: cs) = (c :: s) :: ss := by
  obtain ⟨s, ss, rest⟩ := List.exists_cons_of_ne_nil (cut_ne_nil cs)
  refine ⟨s, ss, rest, ?_⟩
  rw [cut.eq_3 _ _ other, rest]

theorem cut_of_not_mem {cs : List Char} (h : '/' ∉ cs) : cut cs = [cs] := by
  induction cs with
  | nil => rfl
  | cons c cs ih =>
    obtain ⟨own, others⟩ := List.ne_and_not_mem_of_not_mem_cons h
    obtain ⟨s, ss, rest, whole⟩ := cut_cons own.symm cs
    rw [ih others] at rest
    rw [whole, ← (List.cons.inj rest).1, ← (List.cons.inj rest).2]

theorem cut_append {cs : List Char} (h : '/' ∉ cs) (rest : List Char) :
    cut (cs ++ '/' :: rest) = cs :: cut rest := by
  induction cs with
  | nil => rfl
  | cons c cs ih =>
    obtain ⟨own, others⟩ := List.ne_and_not_mem_of_not_mem_cons h
    obtain ⟨s, ss, behind, whole⟩ := cut_cons own.symm (cs ++ '/' :: rest)
    rw [ih others] at behind
    rw [List.cons_append, whole, ← (List.cons.inj behind).1, ← (List.cons.inj behind).2]

theorem not_mem_of_mem_cut {cs s : List Char} (h : s ∈ cut cs) : '/' ∉ s := by
  induction cs generalizing s with
  | nil =>
    rw [cut, List.mem_singleton] at h
    rw [h]
    exact List.not_mem_nil
  | cons c cs ih =>
    by_cases slash : c = '/'
    · rw [slash, cut_slash] at h
      rcases List.mem_cons.1 h with rfl | mem
      · exact List.not_mem_nil
      · exact ih mem
    · obtain ⟨t, ts, rest, whole⟩ := cut_cons slash cs
      rw [whole] at h
      rcases List.mem_cons.1 h with rfl | mem
      · have own : '/' ∉ t := ih (by simp [rest])
        simp [own, Ne.symm slash]
      · exact ih (by simp [rest, mem])

/-! ## Paths and their texts -/

theorem ofText_ne_nil (text : String) : (ofText text).segments ≠ [] := by
  rw [ofText]
  simp [cut_ne_nil]

theorem not_mem_of_mem_ofText {text s : String} (h : s ∈ (ofText text).segments) :
    '/' ∉ s.toList := by
  obtain ⟨cs, mem, rfl⟩ := List.mem_map.1 h
  rw [String.toList_ofList]
  exact not_mem_of_mem_cut mem

theorem ofText_of_not_mem {text : String} (h : '/' ∉ text.toList) : ofText text = ⟨[text]⟩ := by
  rw [ofText, cut_of_not_mem h, List.map_singleton, String.ofList_toList]

theorem text_cons_cons (s t : String) (ss : List String) :
    (mk (s :: t :: ss)).text = s ++ "/" ++ (mk (t :: ss)).text :=
  @text_append [s] (t :: ss) (List.cons_ne_nil _ _) (List.cons_ne_nil _ _)

theorem ofText_text {segments : List String} (some : segments ≠ [])
    (clean : ∀ s ∈ segments, '/' ∉ s.toList) : ofText (mk segments).text = ⟨segments⟩ := by
  induction segments with
  | nil => exact absurd rfl some
  | cons s segments ih =>
    obtain ⟨own, others⟩ := List.forall_mem_cons.1 clean
    cases segments with
    | nil => exact ofText_of_not_mem own
    | cons t segments =>
      have rest := congrArg Path.segments (ih (List.cons_ne_nil _ _) others)
      have text : (mk (s :: t :: segments)).text.toList =
          s.toList ++ '/' :: (mk (t :: segments)).text.toList := by
        rw [text_cons_cons]
        simp
      rw [ofText, text, cut_append own, List.map_cons, String.ofList_toList]
      exact congrArg (fun ss => mk (s :: ss)) rest

theorem toList_text_cons (c : Char) (s : List Char) (ss : List String) :
    (mk (String.ofList (c :: s) :: ss)).text.toList =
      c :: (mk (String.ofList s :: ss)).text.toList := by
  cases ss with
  | nil =>
    show (String.ofList (c :: s)).toList = c :: (String.ofList s).toList
    rw [String.toList_ofList, String.toList_ofList]
  | cons t ss =>
    rw [text_cons_cons, text_cons_cons]
    simp

theorem text_ofText (text : String) : (ofText text).text = text := by
  have spelled (cs : List Char) : (mk ((cut cs).map String.ofList)).text.toList = cs := by
    induction cs with
    | nil => rfl
    | cons c cs ih =>
      by_cases slash : c = '/'
      · obtain ⟨t, ts, rest⟩ := List.exists_cons_of_ne_nil (cut_ne_nil cs)
        rw [rest, List.map_cons] at ih
        rw [slash, cut_slash, rest, List.map_cons, List.map_cons, text_cons_cons,
          String.toList_append, ih]
        rfl
      · obtain ⟨s, ss, rest, whole⟩ := cut_cons slash cs
        rw [rest, List.map_cons] at ih
        rw [whole, List.map_cons, toList_text_cons, ih]
  rw [ofText, ← String.toList_inj, spelled]

theorem mem_text {segments : List String} {s : String} {c : Char} (h : s ∈ segments)
    (mem : c ∈ s.toList) : c ∈ (mk segments).text.toList := by
  induction segments with
  | nil => cases h
  | cons t segments ih =>
    cases segments with
    | nil =>
      rw [List.mem_singleton] at h
      rwa [← h]
    | cons u segments =>
      rw [text_cons_cons, String.toList_append, String.toList_append]
      rcases List.mem_cons.1 h with rfl | h
      · simp [mem]
      · simp [ih h]

end BundlePrep.FileTree.Path
