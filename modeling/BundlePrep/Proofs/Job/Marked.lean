import BundlePrep.Proofs.Message.Marked
import BundlePrep.Proofs.PrivateName.Marked

/-!
# Files with a mark of the byte order

The parser drops a mark of the byte order in front of a script, and the editing of the script does
not. A file with a mark comes out like the one without it only where nothing is edited.
-/

set_option autoImplicit false

namespace BundlePrep

open BundlePrep.Script BundlePrep.Text

/-- A mark of the byte order goes through a conversion that edits nothing, and through no other one,
unless a new name stands already where it is put; it goes through an extraction exactly if that finds
no message, or refuses the script with the mark and without it. -/
theorem mark_transparent {dialect : Dialect} {code : String}
    (plain : code.toList.head? ≠ some '\ufeff') :
    (PrivateName.Untouched dialect code → PrivateName.Transparent dialect code) ∧
    (∀ program, Program.parse? dialect code.toList = some program →
      PrivateName.Tokened code.toList program.root → PrivateName.Transparent dialect code →
        PrivateName.Untouched dialect code ∨
          ∃ edit ∈ PrivateName.editsOf code (PrivateName.resolve program),
            PrivateName.Ahead code edit) ∧
    ∀ moduleId, Message.Transparent dialect moduleId code ↔
      Message.extract dialect moduleId code = .ok ⟨code, []⟩ ∨
        ∃ e e', Message.extract dialect moduleId code = .error e ∧
          Message.extract dialect moduleId (marked code) = .error e' :=
  ⟨PrivateName.transparent_of_untouched plain,
    fun _ parsed tokened => PrivateName.ahead_of_transparent plain parsed tokened,
    Message.transparent_iff plain⟩

/-! ## A class and a call -/

def fieldScript : String := "class A \x7b #x = 1; \x7d"

def callScript : String := "import \x7b localize \x7d from 'nls';\nlocalize('k', 'v');"

theorem convert_fieldScript : PrivateName.convert ⟨false, false⟩ fieldScript =
    .ok ⟨"class A \x7b $a = 1; \x7d", 1, 1, 1⟩ := by decide +kernel

theorem marked_fieldScript : marked fieldScript = "\ufeffclass A \x7b #x = 1; \x7d" := by
  decide +kernel

theorem mark_transparent_field :
    (∃ program, Program.parse? ⟨false, false⟩ fieldScript.toList = some program ∧
      PrivateName.Tokened fieldScript.toList program.root) ∧
    fieldScript.toList.head? ≠ some '\ufeff' ∧
    ¬PrivateName.Transparent ⟨false, false⟩ fieldScript ∧
    Message.Transparent ⟨false, false⟩ "m" fieldScript ∧
    PrivateName.Transparent ⟨false, false⟩ callScript := by
  have spans : (Program.parse? ⟨false, false⟩ fieldScript.toList).map
      (fun program => ((PrivateName.namesIn program.root).map Prod.snd,
        PrivateName.editsOf fieldScript (PrivateName.resolve program))) =
      some ([⟨10, 12⟩], [⟨10, 12, "$a"⟩]) := by decide +kernel
  obtain ⟨program, parsed, found⟩ := Option.map_eq_some_iff.1 spans
  obtain ⟨names, edits⟩ := Prod.mk.inj found
  have token : PrivateName.IsToken fieldScript.toList ⟨10, 12⟩ :=
    ⟨fieldScript.toList.take 10, ['x'], fieldScript.toList.drop 12, by decide, by decide, by decide⟩
  have tokened : PrivateName.Tokened fieldScript.toList program.root :=
    PrivateName.tokened_of_spans names (by simp [token]) (by decide)
  have plain : fieldScript.toList.head? ≠ some '\ufeff' := by decide
  have callPlain : callScript.toList.head? ≠ some '\ufeff' := by decide
  have untouched : PrivateName.Untouched ⟨false, false⟩ callScript :=
    .inr ⟨.unchanged callScript, by decide +kernel, rfl⟩
  have none : Message.extract ⟨false, false⟩ "m" fieldScript = .ok ⟨fieldScript, []⟩ := by
    decide +kernel
  obtain ⟨-, moved, messages⟩ := @mark_transparent ⟨false, false⟩ fieldScript plain
  have through : PrivateName.Transparent ⟨false, false⟩ callScript :=
    (@mark_transparent ⟨false, false⟩ callScript callPlain).1 untouched
  have unseen : Message.Transparent ⟨false, false⟩ "m" fieldScript := (messages "m").2 (.inl none)
  refine ⟨⟨program, parsed, tokened⟩, plain, mt (moved program parsed tokened) ?_, unseen, through⟩
  rintro (untouched | ⟨edit, mem, ahead⟩)
  · rw [PrivateName.Untouched, convert_fieldScript] at untouched
    simp at untouched
  · rw [edits, List.mem_singleton] at mem
    subst mem
    obtain ⟨front, gap, rest, whole, size, three, starts⟩ := ahead
    have cut := splitAt?_append front (gap ++ rest)
    rw [← whole, size, marked_fieldScript] at cut
    have blank : (splitAt? 10 "\ufeffclass A \x7b #x = 1; \x7d".toList).map (·.2.head?) =
        some (some ' ') := by decide +kernel
    rw [cut] at blank
    cases gap with
    | nil => cases three
    | cons c gap =>
      obtain rfl : c = ' ' := by simpa using blank
      obtain ⟨more, same⟩ := starts
      cases (List.cons.inj same).1

/-- The edits of a script with a mark fall three bytes short. -/
theorem mark_moves_edits :
    PrivateName.convert ⟨false, false⟩ (marked fieldScript) =
        .ok ⟨"\ufeffclass A$a #x = 1; \x7d", 1, 1, 1⟩ ∧
      ¬PrivateName.Transparent ⟨false, false⟩ fieldScript ∧
      ¬Message.Transparent ⟨false, false⟩ "m" callScript := by
  have call : marked callScript =
      "\ufeffimport \x7b localize \x7d from 'nls';\nlocalize('k', 'v');" := by decide +kernel
  have moved : PrivateName.convert ⟨false, false⟩ (marked fieldScript) =
      .ok ⟨"\ufeffclass A$a #x = 1; \x7d", 1, 1, 1⟩ := by
    rw [marked_fieldScript]
    decide +kernel
  have extracted : Message.extract ⟨false, false⟩ "m" callScript =
      .ok ⟨"import \x7b localize \x7d from 'nls';\nlocalize(\"%%NLS:m#k%%\", 'v');",
        [⟨"m", .plain "k", "v", "%%NLS:m#k%%"⟩]⟩ := by decide +kernel
  have refused : Message.extract ⟨false, false⟩ "m" (marked callScript) =
      .error (.argument ⟨1, 6⟩ .blank .key (.unexpected 'z' 0)) := by
    rw [call]
    decide +kernel
  refine ⟨moved, ?_, ?_⟩
  · rw [PrivateName.Transparent, moved, convert_fieldScript]
    simp [Script.Agree, marked, ← String.toList_inj]
  · rw [Message.Transparent, extracted, refused]
    exact id

/-- A new name that stands already in front of its private name hides the mark. -/
example : PrivateName.Transparent ⟨false, false⟩ "class A \x7b @$ax#x$a = 1; \x7d" := by
  have converted : PrivateName.convert ⟨false, false⟩ "class A \x7b @$ax#x$a = 1; \x7d" =
      .ok ⟨"class A \x7b @$ax$a = 1; \x7d", 1, 1, 1⟩ := by decide +kernel
  have withMark : marked "class A \x7b @$ax#x$a = 1; \x7d" =
      "\ufeffclass A \x7b @$ax#x$a = 1; \x7d" := by decide +kernel
  have again : PrivateName.convert ⟨false, false⟩ "\ufeffclass A \x7b @$ax#x$a = 1; \x7d" =
      .ok ⟨"\ufeffclass A \x7b @$ax$a = 1; \x7d", 1, 1, 1⟩ := by decide +kernel
  rw [PrivateName.Transparent, withMark, converted, again]
  simp [Script.Agree, marked]

end BundlePrep
