import BundlePrep.Proofs.Job.Turns
import BundlePrep.Proofs.Message.Agreement

/-!
# Gathering the entries of a project

The files of a project are worked on in any order, and the entries of each come into the collection
when it is done. The entries of a file belong to its module, so files that have different modules,
none with a number sign in its id, cannot get into each other's way.
-/

set_option autoImplicit false

namespace BundlePrep.Job

open BundlePrep.FileTree BundlePrep.Message BundlePrep.Script

/-- A file from which entries are extracted, whatever has been written until then. -/
def Extracted (options : ExtractOptions) (file : Path) (entries : List Entry) : Prop :=
  ∃ tree, (Run.on tree (extractFile options file)).1 = .ok entries

/-- Files of different modules, none of which has a number sign in its id. -/
def Apart (root : Path) (files : List Path) : Prop :=
  files.Pairwise (fun a b => a.moduleId? root ≠ b.moduleId? root) ∧
    ∀ file ∈ files, ∀ moduleId ∈ file.moduleId? root, '#' ∉ moduleId.toList

theorem Extracted.belongs {options : ExtractOptions} {file : Path} {entries : List Entry}
    (h : Extracted options file entries) :
    ∃ moduleId, file.moduleId? options.sourceRoot = some moduleId ∧
      ∀ e ∈ entries, ∃ flavor key message, e = .ofCall flavor moduleId key message := by
  obtain ⟨tree, ok⟩ := h
  rw [Run.on, run_extractFile] at ok
  cases prepared : prepare options tree file with
  | error failure => rw [prepared] at ok; cases ok
  | ok out =>
    rw [prepared] at ok
    have gave : (((Run.writeFile out.path out.code).run.run ⟨tree, []⟩).1.map
      fun _ => out.entries) = .ok entries := ok
    obtain ⟨code, moduleId, inner, -, known, extracted, -, -⟩ := prepare_eq_ok prepared
    obtain rfl : out.entries = entries := by
      cases wrote : ((Run.writeFile out.path out.code).run.run ⟨tree, []⟩).1 with
      | error failure => rw [wrote] at gave; cases gave
      | ok _ => rw [wrote] at gave; exact Except.ok.inj gave
    exact ⟨moduleId, known, fun e mem => ofCall_of_mem extracted mem⟩

theorem Apart.agree {options : ExtractOptions} {files : List (Path × List Entry)}
    (extracted : ∀ f ∈ files, Extracted options f.1 f.2)
    (apart : Apart options.sourceRoot (files.map Prod.fst)) : Agree (files.map Prod.snd) := by
  obtain ⟨modules, plain⟩ := apart
  rw [Agree, List.pairwise_map]
  refine List.Pairwise.imp_of_mem ?_ (List.pairwise_map.1 modules)
  intro f g memF memG other placeholder a b lastA lastB
  obtain ⟨m, known, belongs⟩ := (extracted f memF).belongs
  obtain ⟨m', known', belongs'⟩ := (extracted g memG).belongs
  obtain ⟨flavor, key, message, rfl⟩ := belongs a (mem_of_lastWith? lastA)
  obtain ⟨flavor', key', message', rfl⟩ := belongs' b (mem_of_lastWith? lastB)
  have same := (placeholder_of_lastWith? lastA).trans (placeholder_of_lastWith? lastB).symm
  have modules := placeholder_inj (plain _ (List.mem_map_of_mem memF) m known)
    (plain _ (List.mem_map_of_mem memG) m' known') same
  rw [known, known', modules.2.1] at other
  exact absurd rfl other

/-- What is made of the catalog of a project is the same for all orders in which its files come in
exactly if the files agree. Files that are apart do. -/
theorem index_of_any_order {options : ExtractOptions} {files : List (Path × List Entry)}
    (extracted : ∀ f ∈ files, Extracted options f.1 f.2) :
    ((∀ order order' catalog catalog', order.Perm (files.map Prod.snd) →
        order'.Perm (files.map Prod.snd) → Finalizes (gathered order) catalog →
        Finalizes (gathered order') catalog' → SameIndex catalog catalog') ↔
      Agree (files.map Prod.snd)) ∧
    (Apart options.sourceRoot (files.map Prod.fst) → Agree (files.map Prod.snd)) :=
  ⟨sameIndex_iff_agree, Apart.agree extracted⟩

/-! ## Files in each other's way -/

def overlapOptions : ExtractOptions :=
  ⟨.ofText "src", .ofText "out", [], [], [], "_NLS_MESSAGES"⟩

def overlapScript (key message : String) : String :=
  "import \x7b localize \x7d from 'nls';\nlocalize('" ++ key ++ "', '" ++ message ++ "');"

def overlapTree : Tree :=
  ⟨.directory [("src", .directory [("a!.ts", .file (overlapScript "k" "x").toUTF8),
    ("a#b.ts", .file (overlapScript "c" "two").toUTF8),
    ("a.ts", .file (overlapScript "b#c" "one").toUTF8)])], []⟩

def overlapFiles : List (Path × List Entry) :=
  [(.ofText "src/a!.ts", [.ofCall .blank "a!" (.plain "k") "x"]),
    (.ofText "src/a#b.ts", [.ofCall .blank "a#b" (.plain "c") "two"]),
    (.ofText "src/a.ts", [.ofCall .blank "a" (.plain "b#c") "one"])]

theorem extracted_overlapFiles : ∀ f ∈ overlapFiles, Extracted overlapOptions f.1 f.2 := by
  have all : ∀ f ∈ overlapFiles,
      (Run.on overlapTree (extractFile overlapOptions f.1)).1 = .ok f.2 := by
    decide +kernel
  exact fun f mem => ⟨overlapTree, all f mem⟩

theorem index_of_any_order_apart :
    (∀ f ∈ [overlapFiles[0], overlapFiles[2]], Extracted overlapOptions f.1 f.2) ∧
      ∀ order order' catalog catalog',
        order.Perm ([overlapFiles[0], overlapFiles[2]].map Prod.snd) →
        order'.Perm ([overlapFiles[0], overlapFiles[2]].map Prod.snd) →
        Finalizes (gathered order) catalog → Finalizes (gathered order') catalog' →
        SameIndex catalog catalog' := by
  have extracted : ∀ f ∈ [overlapFiles[0], overlapFiles[2]], Extracted overlapOptions f.1 f.2 := by
    intro f mem
    refine extracted_overlapFiles f ?_
    rcases List.mem_pair.1 mem with rfl | rfl <;> exact List.getElem_mem _
  have apart : Apart overlapOptions.sourceRoot
      ([overlapFiles[0], overlapFiles[2]].map Prod.fst) := by
    refine ⟨by decide +kernel, ?_⟩
    decide +kernel
  obtain ⟨iff, agree⟩ := index_of_any_order extracted
  exact ⟨extracted, iff.2 (agree apart)⟩

/-- Two files with different modules whose entries have one placeholder: the one that comes last
decides on the messages, and on the numbers of all placeholders. -/
theorem index_of_overlap :
    (∀ f ∈ overlapFiles, Extracted overlapOptions f.1 f.2) ∧
      ∃ order order' catalog catalog', order.Perm (overlapFiles.map Prod.snd) ∧
        order'.Perm (overlapFiles.map Prod.snd) ∧ Finalizes (gathered order) catalog ∧
        Finalizes (gathered order') catalog' ∧ catalog.messages ≠ catalog'.messages ∧
        catalog.numbers ≠ catalog'.numbers := by
  let first : Catalog :=
    ⟨[.ofCall .blank "a" (.plain "b#c") "one", .ofCall .blank "a!" (.plain "k") "x"]⟩
  let second : Catalog :=
    ⟨[.ofCall .blank "a!" (.plain "k") "x", .ofCall .blank "a#b" (.plain "c") "two"]⟩
  refine ⟨extracted_overlapFiles, overlapFiles.map Prod.snd, (overlapFiles.map Prod.snd).reverse,
    first, second, .refl _, List.reverse_perm _, ⟨_, .refl _, ?_⟩, ⟨_, .refl _, ?_⟩, by decide, ?_⟩
  · exact (ofEntries_eq (by decide +kernel) (by decide +kernel) (by decide +kernel)).symm
  · exact (ofEntries_eq (by decide +kernel) (by decide +kernel) (by decide +kernel)).symm
  · intro same
    have number : first.numbers.number? "%%NLS:a!#k%%" = some 1 :=
      (number?_eq_some_iff (by decide +kernel)).2 ⟨_, rfl, rfl⟩
    have number' : second.numbers.number? "%%NLS:a!#k%%" = some 0 :=
      (number?_eq_some_iff (by decide +kernel)).2 ⟨_, rfl, rfl⟩
    rw [same, number'] at number
    cases number

end BundlePrep.Job
