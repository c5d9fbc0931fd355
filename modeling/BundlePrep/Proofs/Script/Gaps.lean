import BundlePrep.Proofs.Script.Lookahead
import BundlePrep.Script.Scan

/-!
# Gaps between items

A gap ends where an item begins, whatever that item is. Line ends that are put in front of a line
end of a gap belong to the gap, too, even inside a comment.
-/

set_option autoImplicit false

namespace BundlePrep.Script

def Begins (rest : List Char) : Prop :=
  ∀ c ∈ rest.head?, isLineEnd c = false ∧ isBlank c = false

def Comments (newline : Bool) (rest : List Char) : Prop :=
  (∃ cs, rest = '/' :: '/' :: cs) ∨ (∃ cs, rest = '/' :: '*' :: cs) ∨
    (∃ cs, rest = '<' :: '!' :: '-' :: '-' :: cs) ∨
      newline = true ∧ ∃ cs, rest = '-' :: '-' :: '>' :: cs

theorem Comments.near {newline : Bool} {cs ds : List Char} (h : Comments newline ds)
    (near : Near cs ds) : Comments newline cs := by
  rcases h with ⟨es, rfl⟩ | ⟨es, rfl⟩ | ⟨es, rfl⟩ | ⟨start, es, rfl⟩
  · exact .inl (near.begins (p := ['/', '/']) rfl (by decide) (by decide))
  · exact .inr (.inl (near.begins (p := ['/', '*']) rfl (by decide) (by decide)))
  · exact .inr (.inr (.inl
      (near.begins (p := ['<', '!', '-', '-']) rfl (by decide) (by decide))))
  · exact .inr (.inr (.inr
      ⟨start, near.begins (p := ['-', '-', '>']) rfl (by decide) (by decide)⟩))

def Opens (cs ds : List Char) : Prop :=
  (∀ newline, Comments newline ds → Comments newline cs) ∧ (ds.head? = some '/' → cs.head? = some '/')

theorem Near.opens {cs ds : List Char} (h : Near cs ds) : Opens cs ds :=
  ⟨fun _ comments => comments.near h, (h.head (by decide)).2⟩

theorem opens_of_head {cs ds : List Char} {d : Char} (head : ds.head? = some d)
    (other : d ≠ '/' ∧ d ≠ '<' ∧ d ≠ '-') : Opens cs ds := by
  obtain ⟨ds, rfl⟩ := List.head?_eq_some_iff.1 head
  refine ⟨fun newline comments => ?_, fun slash => ?_⟩
  · rcases comments with ⟨es, same⟩ | ⟨es, same⟩ | ⟨es, same⟩ | ⟨-, es, same⟩
    all_goals obtain ⟨rfl, -⟩ := List.cons.inj same
    · exact absurd rfl other.1
    · exact absurd rfl other.1
    · exact absurd rfl other.2.1
    · exact absurd rfl other.2.2
  · exact absurd (by simpa using slash) other.1

theorem begins_of_head {text : List Char} {d : Char} (head : text.head? = some d)
    (other : isLineEnd d = false ∧ isBlank d = false) : Begins text := by
  intro c mem
  obtain rfl : d = c := by simpa [head] using mem
  exact other

theorem skipGap_here {newline : Bool} {rest : List Char} (begins : Begins rest)
    (comments : ¬Comments newline rest) (legacy : Bool) (pos : Nat) :
    skipGap newline legacy .code rest pos = some ⟨rest, pos, newline, legacy⟩ := by
  cases rest with
  | nil =>
    rw [skipGap]
    intros
    contradiction
  | cons c cs =>
    obtain ⟨lineEnd, blank⟩ := begins c rfl
    by_cases close : ∃ ds, c :: cs = '-' :: '-' :: '>' :: ds
    · obtain ⟨ds, same⟩ := close
      have start : newline = false := by
        by_contra start
        rw [Bool.not_eq_false] at start
        exact comments (.inr (.inr (.inr ⟨start, ds, same⟩)))
      rw [same, skipGap, start]
      rfl
    · rw [skipGap, lineEnd, blank]
      · rfl
      · rintro ds rfl rfl
        exact comments (.inl ⟨ds, rfl⟩)
      · rintro ds rfl rfl
        exact comments (.inr (.inl ⟨ds, rfl⟩))
      · rintro ds rfl rfl
        exact comments (.inr (.inr (.inl ⟨ds, rfl⟩)))
      · rintro ds rfl rfl
        exact close ⟨ds, rfl⟩

theorem skipGap_eq_some {newline legacy : Bool} {inside : Inside} {cs : List Char} {pos : Nat}
    {gap : Gap} (h : skipGap newline legacy inside cs pos = some gap) (nonempty : gap.rest ≠ []) :
    Begins gap.rest ∧ ∃ w, cs = w ++ gap.rest ∧ ∀ rest, Opens gap.rest rest → Begins rest →
      skipGap newline legacy inside (w ++ rest) pos = some { gap with rest := rest } := by
  fun_induction skipGap newline legacy inside cs pos with
  | case1 => cases h
  | case2 =>
    obtain rfl := Option.some.inj h
    exact absurd rfl nonempty
  | case3 newline legacy c cs pos lineEnd ih =>
    obtain ⟨begins, w, rfl, other⟩ := ih h
    refine ⟨begins, c :: w, rfl, fun rest opens begins' => ?_⟩
    rw [List.cons_append, skipGap, if_pos lineEnd, other rest opens begins']
  | case4 newline legacy c cs pos lineEnd ih =>
    obtain ⟨begins, w, rfl, other⟩ := ih h
    refine ⟨begins, c :: w, rfl, fun rest opens begins' => ?_⟩
    rw [List.cons_append, skipGap, if_neg lineEnd, other rest opens begins']
  | case5 newline legacy cs pos ih =>
    obtain ⟨begins, w, rfl, other⟩ := ih h
    exact ⟨begins, '*' :: '/' :: w, rfl, other⟩
  | case6 newline legacy c cs pos close ih =>
    obtain ⟨begins, w, rfl, other⟩ := ih h
    refine ⟨begins, c :: w, rfl, fun rest opens begins' => ?_⟩
    rw [List.cons_append, skipGap, other rest opens begins']
    rintro ds rfl same
    cases w with
    | nil =>
      rw [List.nil_append] at same
      subst same
      obtain ⟨es, behind⟩ := List.head?_eq_some_iff.1 (opens.2 rfl)
      exact close es rfl behind
    | cons d w =>
      obtain ⟨rfl, -⟩ := List.cons.inj same
      exact close _ rfl rfl
  | case7 newline legacy cs pos ih =>
    obtain ⟨begins, w, rfl, other⟩ := ih h
    exact ⟨begins, '/' :: '/' :: w, rfl, other⟩
  | case8 newline legacy cs pos ih =>
    obtain ⟨begins, w, rfl, other⟩ := ih h
    exact ⟨begins, '/' :: '*' :: w, rfl, other⟩
  | case9 newline legacy cs pos ih =>
    obtain ⟨begins, w, rfl, other⟩ := ih h
    exact ⟨begins, '<' :: '!' :: '-' :: '-' :: w, rfl, other⟩
  | case10 legacy cs pos ih =>
    obtain ⟨begins, w, rfl, other⟩ := ih h
    exact ⟨begins, '-' :: '-' :: '>' :: w, rfl, other⟩
  | case11 newline legacy cs pos start =>
    obtain rfl := Option.some.inj h
    refine ⟨?_, [], rfl, fun rest opens begins' => skipGap_here begins' ?_ legacy pos⟩
    · intro c mem
      obtain rfl : '-' = c := by simpa using mem
      decide
    intro comments
    rcases opens.1 _ comments with ⟨_, same⟩ | ⟨_, same⟩ | ⟨_, same⟩ | ⟨newline, -⟩
    · cases same
    · cases same
    · cases same
    · exact start newline
  | case12 newline legacy c cs pos line block markup close lineEnd ih =>
    obtain ⟨begins, w, rfl, other⟩ := ih h
    refine ⟨begins, c :: w, rfl, fun rest opens begins' => ?_⟩
    rw [List.cons_append, skipGap, if_pos lineEnd, other rest opens begins']
    all_goals
      rintro ds rfl
      exact absurd lineEnd (by decide)
  | case13 newline legacy c cs pos line block markup close lineEnd blank ih =>
    obtain ⟨begins, w, rfl, other⟩ := ih h
    refine ⟨begins, c :: w, rfl, fun rest opens begins' => ?_⟩
    rw [List.cons_append, skipGap, if_neg lineEnd, if_pos blank, other rest opens begins']
    all_goals
      rintro ds rfl
      exact absurd blank (by decide)
  | case14 newline legacy c cs pos line block markup close lineEnd blank =>
    obtain rfl := Option.some.inj h
    refine ⟨?_, [], rfl, fun rest opens begins' => skipGap_here begins' ?_ legacy pos⟩
    · intro d mem
      obtain rfl : c = d := by simpa using mem
      exact ⟨by simpa using lineEnd, by simpa using blank⟩
    · intro comments
      rcases opens.1 _ comments with ⟨ds, same⟩ | ⟨ds, same⟩ | ⟨ds, same⟩ | ⟨-, ds, same⟩
      all_goals obtain ⟨rfl, rfl⟩ := List.cons.inj same
      · exact line ds rfl rfl
      · exact block ds rfl rfl
      · exact markup ds rfl rfl
      · exact close ds rfl rfl

/-! ## Line ends in a gap -/

theorem isLineEnd_of_isNewline {c : Char} (h : isNewline c = true) : isLineEnd c = true := by
  simp only [isNewline, Bool.or_eq_true, beq_iff_eq] at h
  rcases h with rfl | rfl <;> rfl

def Inside.behind : Inside → Inside
  | .blockComment => .blockComment
  | _ => .code

theorem skipGap_newline {c : Char} (h : isNewline c = true) (newline legacy : Bool)
    (inside : Inside) (cs : List Char) (pos : Nat) :
    skipGap newline legacy inside (c :: cs) pos =
      skipGap true legacy inside.behind cs (pos + c.utf8Size) := by
  have lineEnd := isLineEnd_of_isNewline h
  cases inside with
  | lineComment => rw [skipGap, if_pos lineEnd]; rfl
  | blockComment =>
    rw [skipGap, lineEnd, Bool.or_true]
    · rfl
    · rintro ds rfl
      exact absurd h (by decide)
  | code =>
    rw [skipGap, if_pos lineEnd]
    · rfl
    all_goals
      rintro ds rfl
      exact absurd h (by decide)

theorem skipGap_rest (newline legacy legacy' : Bool) (inside : Inside) (cs : List Char)
    (pos pos' : Nat) : (skipGap newline legacy inside cs pos).map (·.rest) =
      (skipGap newline legacy' inside cs pos').map (·.rest) := by
  fun_induction skipGap newline legacy inside cs pos generalizing legacy' pos' with
  | case1 => rfl
  | case2 newline legacy pos inside other =>
    rw [skipGap]
    · rfl
    · exact other
  | case3 newline legacy c cs pos lineEnd ih => rw [skipGap, if_pos lineEnd, ih]
  | case4 newline legacy c cs pos lineEnd ih => rw [skipGap, if_neg lineEnd, ih]
  | case5 newline legacy cs pos ih => rw [skipGap, ih]
  | case6 newline legacy c cs pos close ih =>
    rw [skipGap, ih]
    exact close
  | case7 newline legacy cs pos ih => rw [skipGap, ih]
  | case8 newline legacy cs pos ih => rw [skipGap, ih]
  | case9 newline legacy cs pos ih => rw [skipGap, ih]
  | case10 legacy cs pos ih => rw [skipGap, if_pos rfl, ih]
  | case11 newline legacy cs pos start =>
    rw [skipGap, if_neg start]
    rfl
  | case12 newline legacy c cs pos line block markup close lineEnd ih =>
    rw [skipGap, if_pos lineEnd, ih]
    all_goals assumption
  | case13 newline legacy c cs pos line block markup close lineEnd blank ih =>
    rw [skipGap, if_neg lineEnd, if_pos blank, ih]
    all_goals assumption
  | case14 newline legacy c cs pos line block markup close lineEnd blank =>
    rw [skipGap, if_neg lineEnd, if_neg blank]
    · rfl
    all_goals assumption

def Pauses (text : List Char) : Prop := ∀ c ∈ text.head?, isNewline c = true

theorem pauses_nil : Pauses [] := nofun

theorem pauses_cons {c : Char} (h : isNewline c = true) (cs : List Char) : Pauses (c :: cs) := by
  intro d mem
  obtain rfl : c = d := by simpa using mem
  exact h

theorem split_plain {p a t ds : List Char} (h : p ++ ds = a ++ t)
    (plain : ∀ d ∈ p, isNewline d = false) (pauses : Pauses t) :
    ∃ a', a = p ++ a' ∧ ds = a' ++ t := by
  induction p generalizing a with
  | nil => exact ⟨a, rfl, h⟩
  | cons d p ih =>
    cases a with
    | nil =>
      have newline := pauses d (by rw [← List.nil_append t, ← h]; rfl)
      rw [plain d (by simp)] at newline
      cases newline
    | cons e a =>
      obtain ⟨rfl, rest⟩ := List.cons.inj h
      obtain ⟨a', rfl, same⟩ := ih rest fun f mem => plain f (by simp [mem])
      exact ⟨a', rfl, same⟩

theorem skipGap_through {newline legacy : Bool} {inside : Inside} {a t : List Char} {pos : Nat}
    {gap : Gap} (pauses : Pauses t) (h : skipGap newline legacy inside (a ++ t) pos = some gap)
    (behind : gap.rest.length ≤ t.tail.length) :
    ∃ newline' legacy' inside' pos', ∀ ds, Pauses ds →
      skipGap newline legacy inside (a ++ ds) pos = skipGap newline' legacy' inside' ds pos' := by
  generalize whole : a ++ t = text at h
  fun_induction skipGap newline legacy inside text pos generalizing a with
  | case1 => cases h
  | case2 newline legacy inside pos other =>
    obtain ⟨rfl, rfl⟩ := List.append_eq_nil_iff.1 whole
    exact ⟨newline, legacy, inside, pos, fun _ _ => rfl⟩
  | case3 newline legacy e es pos lineEnd ih =>
    cases a with
    | nil => exact ⟨newline, legacy, .lineComment, pos, fun _ _ => rfl⟩
    | cons f a =>
      obtain ⟨rfl, same⟩ := List.cons.inj whole
      obtain ⟨newline', legacy', inside', pos', other⟩ := ih same h
      refine ⟨newline', legacy', inside', pos', fun ds hd => ?_⟩
      rw [List.cons_append, skipGap, if_pos lineEnd, other ds hd]
  | case4 newline legacy e es pos lineEnd ih =>
    cases a with
    | nil => exact ⟨newline, legacy, .lineComment, pos, fun _ _ => rfl⟩
    | cons f a =>
      obtain ⟨rfl, same⟩ := List.cons.inj whole
      obtain ⟨newline', legacy', inside', pos', other⟩ := ih same h
      refine ⟨newline', legacy', inside', pos', fun ds hd => ?_⟩
      rw [List.cons_append, skipGap, if_neg lineEnd, other ds hd]
  | case5 newline legacy es pos ih =>
    obtain ⟨further, rfl, same⟩ := split_plain (p := ['*', '/']) whole.symm (by decide) pauses
    obtain ⟨newline', legacy', inside', pos', other⟩ := ih same.symm h
    exact ⟨newline', legacy', inside', pos', other⟩
  | case6 newline legacy e es pos close ih =>
    cases a with
    | nil => exact ⟨newline, legacy, .blockComment, pos, fun _ _ => rfl⟩
    | cons f a =>
      obtain ⟨rfl, same⟩ := List.cons.inj whole
      obtain ⟨newline', legacy', inside', pos', other⟩ := ih same h
      refine ⟨newline', legacy', inside', pos', fun ds hd => ?_⟩
      rw [List.cons_append, skipGap, other ds hd]
      rintro es' rfl starts
      obtain ⟨further, rfl, -⟩ := split_plain (p := ['/']) starts.symm (by decide) hd
      exact close _ rfl same.symm
  | case7 newline legacy es pos ih =>
    obtain ⟨further, rfl, same⟩ := split_plain (p := ['/', '/']) whole.symm (by decide) pauses
    obtain ⟨newline', legacy', inside', pos', other⟩ := ih same.symm h
    exact ⟨newline', legacy', inside', pos', other⟩
  | case8 newline legacy es pos ih =>
    obtain ⟨further, rfl, same⟩ := split_plain (p := ['/', '*']) whole.symm (by decide) pauses
    obtain ⟨newline', legacy', inside', pos', other⟩ := ih same.symm h
    exact ⟨newline', legacy', inside', pos', other⟩
  | case9 newline legacy es pos ih =>
    obtain ⟨further, rfl, same⟩ := split_plain (p := ['<', '!', '-', '-']) whole.symm (by decide) pauses
    obtain ⟨newline', legacy', inside', pos', other⟩ := ih same.symm h
    exact ⟨newline', legacy', inside', pos', other⟩
  | case10 legacy es pos ih =>
    obtain ⟨further, rfl, same⟩ := split_plain (p := ['-', '-', '>']) whole.symm (by decide) pauses
    obtain ⟨newline', legacy', inside', pos', other⟩ := ih same.symm h
    exact ⟨newline', legacy', inside', pos', other⟩
  | case11 newline legacy es pos start =>
    obtain rfl := Option.some.inj h
    have length := congrArg List.length whole
    simp only [List.length_append, List.length_cons, List.length_tail] at length behind
    omega
  | case12 newline legacy e es pos line block markup close lineEnd ih =>
    cases a with
    | nil => exact ⟨newline, legacy, .code, pos, fun _ _ => rfl⟩
    | cons f a =>
      obtain ⟨rfl, same⟩ := List.cons.inj whole
      obtain ⟨newline', legacy', inside', pos', other⟩ := ih same h
      refine ⟨newline', legacy', inside', pos', fun ds hd => ?_⟩
      rw [List.cons_append, skipGap, if_pos lineEnd, other ds hd]
      all_goals
        rintro es' rfl
        exact absurd lineEnd (by decide)
  | case13 newline legacy e es pos line block markup close lineEnd blank ih =>
    cases a with
    | nil => exact ⟨newline, legacy, .code, pos, fun _ _ => rfl⟩
    | cons f a =>
      obtain ⟨rfl, same⟩ := List.cons.inj whole
      obtain ⟨newline', legacy', inside', pos', other⟩ := ih same h
      refine ⟨newline', legacy', inside', pos', fun ds hd => ?_⟩
      rw [List.cons_append, skipGap, if_neg lineEnd, if_pos blank, other ds hd]
      all_goals
        rintro es' rfl
        exact absurd blank (by decide)
  | case14 newline legacy e es pos line block markup close lineEnd blank =>
    obtain rfl := Option.some.inj h
    have length := congrArg List.length whole
    simp only [List.length_append, List.length_cons, List.length_tail] at length behind
    omega

theorem skipGap_newlines {w : List Char} (h : ∀ c ∈ w, isNewline c = true) {c : Char}
    (hc : isNewline c = true) (newline legacy : Bool) (inside : Inside) (cs : List Char)
    (pos : Nat) : (skipGap newline legacy inside (w ++ c :: cs) pos).map (·.rest) =
      (skipGap newline legacy inside (c :: cs) pos).map (·.rest) := by
  have twice (inside : Inside) : inside.behind.behind = inside.behind := by cases inside <;> rfl
  induction w generalizing newline inside pos with
  | nil => rfl
  | cons d w ih =>
    rw [List.cons_append, skipGap_newline (h d (by simp)), ih fun e mem => h e (by simp [mem]),
      skipGap_newline hc, skipGap_newline hc, twice]
    exact skipGap_rest ..

theorem skipGap_only {w : List Char} (h : ∀ c ∈ w, isNewline c = true) {newline legacy : Bool}
    {pos : Nat} : (skipGap newline legacy .code w pos).map (·.rest) = some [] := by
  induction w generalizing newline pos with
  | nil => rfl
  | cons c w ih =>
    rw [skipGap_newline (h c (by simp))]
    exact ih fun d mem => h d (by simp [mem])

/-! ## What stands behind a gap -/

/-- The text behind the gap at the beginning of a text. -/
def behindGap? (newline : Bool) (cs : List Char) : Option (List Char) :=
  (skipGap newline false .code cs 0).map (·.rest)

theorem behindGap?_opens {newline : Bool} {gap rest rest' : List Char}
    (h : behindGap? newline (gap ++ rest) = some rest) (nonempty : rest ≠ [])
    (opens : Opens rest rest') (begins : Begins rest') :
    behindGap? newline (gap ++ rest') = some rest' := by
  obtain ⟨found, skipped, rfl⟩ := Option.map_eq_some_iff.1 h
  obtain ⟨-, w, whole, other⟩ := skipGap_eq_some skipped nonempty
  rw [List.append_cancel_right_eq] at whole
  subst whole
  rw [behindGap?, other rest' opens begins]
  rfl

theorem behindGap?_begins {newline : Bool} {cs rest : List Char}
    (h : behindGap? newline cs = some rest) (nonempty : rest ≠ []) : Begins rest := by
  obtain ⟨found, skipped, rfl⟩ := Option.map_eq_some_iff.1 h
  exact (skipGap_eq_some skipped nonempty).1

theorem behindGap?_newlines {newline : Bool} {a b w rest : List Char} {c : Char}
    (h : behindGap? newline (a ++ c :: b ++ rest) = some rest) (hc : isNewline c = true)
    (hw : ∀ d ∈ w, isNewline d = true) :
    behindGap? newline (a ++ (w ++ c :: b) ++ rest) = some rest := by
  obtain ⟨found, skipped, same⟩ := Option.map_eq_some_iff.1 h
  have whole : a ++ c :: b ++ rest = a ++ c :: (b ++ rest) := by simp
  rw [whole] at skipped h
  have behind : found.rest.length ≤ (c :: (b ++ rest)).tail.length := by
    rw [same, List.tail_cons, List.length_append]
    omega
  obtain ⟨newline', legacy, inside, pos, other⟩ :=
    skipGap_through (pauses_cons hc _) skipped behind
  rw [← h, behindGap?, behindGap?]
  cases w with
  | nil => simp
  | cons d w =>
    have split : a ++ (d :: w ++ c :: b) ++ rest = a ++ d :: (w ++ c :: (b ++ rest)) := by simp
    rw [split, other _ (pauses_cons (hw d (by simp)) _), other _ (pauses_cons hc _),
      ← List.cons_append]
    exact skipGap_newlines hw hc ..

theorem behindGap?_end {newline : Bool} {gap w : List Char} (h : behindGap? newline gap = some [])
    (hw : ∀ d ∈ w, isNewline d = true) : behindGap? newline (gap ++ w) = some [] := by
  obtain ⟨found, skipped, same⟩ := Option.map_eq_some_iff.1 h
  rw [← List.append_nil gap] at skipped
  obtain ⟨newline', legacy, inside, pos, other⟩ :=
    skipGap_through pauses_nil skipped (by rw [same]; exact Nat.le_refl 0)
  have code : inside ≠ .blockComment := by
    rintro rfl
    rw [other [] pauses_nil, skipGap] at skipped
    cases skipped
  cases w with
  | nil => rw [List.append_nil, h]
  | cons d w =>
    rw [behindGap?, other _ (pauses_cons (hw d (by simp)) w), skipGap_newline (hw d (by simp))]
    have inCode : inside.behind = .code := by
      cases inside with
      | blockComment => exact absurd rfl code
      | _ => rfl
    rw [inCode]
    exact skipGap_only fun e mem => hw e (by simp [mem])

end BundlePrep.Script
