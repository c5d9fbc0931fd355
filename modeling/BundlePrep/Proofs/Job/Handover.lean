import BundlePrep.Proofs.Job.Inlining
import BundlePrep.Proofs.Job.Kept
import BundlePrep.Proofs.Job.Reloading
import BundlePrep.Proofs.Message.Script

/-!
# From the extraction to the built code

An extraction with messages leaves its artifacts in the output directory. When the numbers are put into
the files there, the script with the messages is one of them.
-/

set_option autoImplicit false

namespace BundlePrep.Job

open BundlePrep.FileTree BundlePrep.FileTree.Tree BundlePrep.Message

/-! ## What an extraction leaves -/

theorem exists_run_mapM {α : Type} (turn : Path → Run α) (files : List Path) (work : Work) :
    ∃ results after, (files.mapM fun file => do return (file, ← (turn file).attempt) :
      Run (List (Path × Except Failure α))).run.run work = (.ok results, after) := by
  induction files generalizing work with
  | nil => exact ⟨[], work, rfl⟩
  | cons file files ih =>
    rcases ran : (turn file).run.run work with ⟨result, mid⟩
    obtain ⟨results, after, rest⟩ := ih mid
    have first : (do return (file, ← (turn file).attempt) :
        Run (Path × Except Failure α)).run.run work = (.ok (file, result), mid) := by
      rw [Run.run_bind, Run.run_attempt, ran]
      rfl
    refine ⟨(file, result) :: results, after, ?_⟩
    rw [List.mapM_cons, Run.run_bind, first]
    dsimp only
    rw [Run.run_bind, rest]
    rfl

theorem keeps_finish (options : ExtractOptions) (entries : List Entry) :
    Run.Keeps (finish options entries) := by
  intro work proper
  rw [run_finish]
  split
  · exact proper
  · exact keeps_writeAll options (catalogOf entries) work proper

theorem keeps_extractFiles (options : ExtractOptions) : Run.Keeps (extractFiles options) := by
  have scans (base : Path) (includes ignores extensions : List String) :
      Run.Keeps (Run.scanned base includes ignores extensions) := fun _ proper => proper
  have extracts := Run.Keeps.mapM fun file =>
    (keeps_extractFile options file).attempt.bind fun result => .pure (file, result)
  have joins (results : List (Path × Except Failure (List Entry))) : Run.Keeps (joined results) := by
    refine .mapM ?_ results
    exact fun _ _ proper => proper
  exact (scans _ _ _ _).bind fun files => (extracts files).bind fun results =>
    (joins results).bind fun entries => (keeps_finish options _).bind fun _ => .pure _

theorem eq_of_mem_allArtifactFiles {options : ExtractOptions} {catalog : Catalog} {tree : Tree}
    {a b : Path × ByteArray} (memA : a ∈ allArtifactFiles options catalog)
    (memB : b ∈ allArtifactFiles options catalog) (place : tree.target a.1 = tree.target b.1) :
    a.2 = b.2 := by
  obtain ⟨directory, -, name, text, artifact, rfl⟩ := mem_allArtifactFiles.1 memA
  obtain ⟨directory', -, name', text', artifact', rfl⟩ := mem_allArtifactFiles.1 memB
  have down := leadsDown_artifactNames name (mem_artifactNames artifact)
  have down' := leadsDown_artifactNames name' (mem_artifactNames artifact')
  rw [target_child tree directory down, target_child tree directory' down'] at place
  obtain rfl : name = name' := by simpa using (List.append_inj' place rfl).2
  rw [text_of_mem_artifacts artifact artifact']

theorem exists_catalog {options : ExtractOptions} {tree : Tree} {stats : ExtractStats} {work : Work}
    (ran : Run.on tree (extractFiles options) = (.ok stats, work)) (some : 0 < stats.messages) :
    ∃ catalog : Catalog, catalog.size = stats.messages ∧
      ∃ mid, Written (allArtifactFiles options catalog) mid work.tree := by
  obtain ⟨results, mid, turns⟩ := exists_run_mapM (extractFile options) (sourceFiles options tree)
    ⟨tree, (scan tree options.sourceRoot options.includes options.ignores
      sourceExtensions).warnings⟩
  rw [on_extractFiles turns] at ran
  rcases joins : (joined results).run.run mid with ⟨failure | entries, next⟩ <;> rw [joins] at ran
  · cases ran
  dsimp only at ran
  by_cases none : entries.flatten = []
  · rw [if_pos none] at ran
    obtain rfl := Except.ok.inj (Prod.mk.inj ran).1
    rw [countsOf, none, catalogOf_nil] at some
    cases some
  · rw [if_neg none] at ran
    rcases done : (writeAll options (catalogOf entries.flatten)).run.run next with ⟨e | u, after⟩
    · rw [done] at ran
      cases ran
    · rw [done] at ran
      obtain ⟨counts, rfl⟩ := Prod.mk.inj ran
      rw [← Except.ok.inj counts]
      exact ⟨catalogOf entries.flatten, rfl, next.tree, (writes_writeAll _ _).done done⟩

/-- The artifacts of a catalog are read in the output directory. -/
def Delivered (options : ExtractOptions) (catalog : Catalog) (tree : Tree) : Prop :=
  ∀ name text, (name, text) ∈ catalog.artifacts options.globalName →
    tree.read (options.outDir.child name) = .ok text.toUTF8

theorem delivered_of_written {options : ExtractOptions} {catalog : Catalog} {before after : Tree}
    (h : Written (allArtifactFiles options catalog) before after) :
    Delivered options catalog after := by
  intro name text artifact
  have mem : (options.outDir.child name, text.toUTF8) ∈ allArtifactFiles options catalog :=
    mem_allArtifactFiles.2 ⟨_, List.mem_cons_self .., name, text, artifact, rfl⟩
  exact h.read mem fun other mem' place => eq_of_mem_allArtifactFiles mem' mem place

/-! ## What becomes of the script -/

def scriptName : String := "nls.messages.js"

def messagesName : String := "nls.messages.json"

section

variable {options : ExtractOptions} {catalog : Catalog} {tree after : Tree} {build : Build}

theorem hasExtension_scriptName (base : Path) :
    hasExtension builtExtensions (base.child scriptName) = true := by
  rw [hasExtension, Path.extension?, Path.fileName?_child base (by decide)]
  decide

theorem hasExtension_messagesName (base : Path) :
    hasExtension builtExtensions (base.child messagesName) = false := by
  rw [hasExtension, Path.extension?, Path.fileName?_child base (by decide)]
  decide

theorem Delivered.read_list (delivered : Delivered options catalog tree) :
    tree.read (options.outDir.child messagesName) = .ok catalog.messagesJson.compact.toUTF8 :=
  delivered messagesName _ (List.mem_cons_self ..)

theorem Delivered.read_script (delivered : Delivered options catalog tree) :
    tree.read (options.outDir.child scriptName) = .ok (catalog.script options.globalName).toUTF8 :=
  delivered scriptName _ (by simp [Catalog.artifacts, scriptName])

theorem eq_child_of_target (proper : tree.Proper) {base file : Path} {name : String}
    {extensions : List String} (down : Path.leadsDown name = true)
    (mem : file ∈ (scan tree base [] [] extensions).files)
    (place : tree.target file = tree.target (base.child name)) : file = base.child name := by
  obtain ⟨root, start, item, found, below⟩ := exists_of_mem_scan mem
  obtain rfl : root = base := List.mem_singleton.1 start
  have inside := Item.isProper_at? proper (find_eq_ok.1 found).2
  obtain ⟨names, content, rfl, downs, -⟩ := Item.exists_of_mem_files item inside below
  rw [target_descend tree _ downs, target_child tree _ down, List.append_cancel_left_eq] at place
  rw [place]
  rfl

theorem read_messages (proper : tree.Proper) (delivered : Delivered options catalog tree)
    (applied : (inlining catalog.numbers build).Applied
      (filesToInline ⟨options.outDir, options.outDir, build⟩ tree) tree after) :
    after.read (options.outDir.child messagesName) =
      .ok catalog.messagesJson.compact.toUTF8 := by
  have read := delivered.read_list
  refine applied.grows.read read ?_
  rw [applied.kept _ fun file mem _ _ _ place => ?_]
  · exact (read_eq_ok.1 read).2
  · have own := eq_child_of_target proper (by decide) mem place
    have extension := extension_of_mem_scan mem
    rw [own, hasExtension_messagesName] at extension
    cases extension

/-- The script holds what was written into it. -/
def Unchanged (options : ExtractOptions) (catalog : Catalog) (tree : Tree) : Prop :=
  tree.read (options.outDir.child scriptName) = .ok (catalog.script options.globalName).toUTF8

/-- The numbers fit into words, and the output directory has a name. -/
def Reached (options : ExtractOptions) (catalog : Catalog) : Prop :=
  options.outDir.text ≠ "" ∧ ∀ pair ∈ catalog.numbers, pair.2 < UInt64.size

theorem mem_filesToInline_iff (proper : tree.Proper) (delivered : Delivered options catalog tree) :
    options.outDir.child scriptName ∈ filesToInline ⟨options.outDir, options.outDir, build⟩ tree ↔
      options.outDir.text ≠ "" := by
  have read := delivered.read_script
  constructor
  · intro mem empty
    obtain ⟨root, start, item, found, -⟩ := exists_of_mem_scan mem
    obtain rfl : root = options.outDir := List.mem_singleton.1 start
    have checked := (locate_eq_ok.1 (find_eq_ok.1 found).1).1
    exact (checkPath_eq_ok.1 checked).2.1 empty
  · intro full
    have there := (read_eq_ok.1 read).2
    rw [target_child tree _ (by decide)] at there
    obtain ⟨file, mem, place⟩ := exists_mem_scan_child (isDirectory_of_child read full) there
      (hasExtension_scriptName options.outDir)
    rwa [← eq_child_of_target proper (by decide) mem place]

theorem read_script_iff (proper : tree.Proper) (delivered : Delivered options catalog tree)
    (applied : (inlining catalog.numbers build).Applied
      (filesToInline ⟨options.outDir, options.outDir, build⟩ tree) tree after) :
    after.read (options.outDir.child scriptName) =
        .ok (catalog.script options.globalName).toUTF8 ↔
      (options.outDir.text ≠ "" →
        (scanned catalog.numbers build (catalog.script options.globalName).toList).replaced = 0) := by
  have read := delivered.read_script
  have outcome : (inlining catalog.numbers build).outcome tree (options.outDir.child scriptName) =
      inlining catalog.numbers build (options.outDir.child scriptName)
        (catalog.script options.globalName) := by
    rw [Change.outcome, readText_of_read read]
  rw [inlining, inlineNumbers_eq] at outcome
  rw [← @mem_filesToInline_iff options catalog tree build proper delivered]
  generalize catalog.script options.globalName = script at read outcome ⊢
  by_cases replaced : (scanned catalog.numbers build script.toList).replaced = 0
  · refine iff_of_true (applied.grows.read read ?_) fun _ => replaced
    rw [applied.kept _ fun file mem result text outcome' place => ?_]
    · exact (read_eq_ok.1 read).2
    · rw [eq_child_of_target proper (by decide) mem place, outcome, replaced] at outcome'
      cases outcome'
  by_cases mem : options.outDir.child scriptName ∈
      filesToInline ⟨options.outDir, options.outDir, build⟩ tree
  · refine iff_of_false (fun same => ?_) fun h => replaced (h mem)
    rw [if_pos (Nat.pos_of_ne_zero replaced)] at outcome
    have held := applied.held _ mem _ _ outcome
    have kept := (read_eq_ok.1 same).2
    rw [applied.grows.target, held] at kept
    have text := String.toByteArray_inj.1 (Kind.file.inj (Option.some.inj kept))
    have code : (scanned catalog.numbers build script.toList).code = script.toList :=
      String.toList_ofList.symm.trans (congrArg String.toList text)
    exact replaced ((code_scanned_eq_iff script.toList).1 code)
  · refine iff_of_true (applied.grows.read read ?_) fun h => absurd h mem
    rw [applied.kept _ fun file mem' _ _ _ place => ?_]
    · exact (read_eq_ok.1 read).2
    · exact mem (eq_child_of_target proper (by decide) mem' place ▸ mem')

/-- When numbers are put into the files of the output directory, the list of the messages stays as it is,
and the script does exactly if the numbers are not read or none is put into it. -/
theorem on_delivered (proper : tree.Proper) (delivered : Delivered options catalog tree)
    (build : Build) :
    ∃ result after, Run.on tree (inlineFiles ⟨options.outDir, options.outDir, build⟩) =
        (result, after) ∧
      after.tree.read (options.outDir.child messagesName) = .ok catalog.messagesJson.compact.toUTF8 ∧
      ((∀ pair ∈ catalog.numbers, pair.2 < UInt64.size) → ∃ stats, result = .ok stats) ∧
      (Unchanged options catalog after.tree ↔ (Reached options catalog → (scanned catalog.numbers build
        (catalog.script options.globalName).toList).replaced = 0)) := by
  have stored : tree.read (options.outDir.child numbersFile) =
      .ok catalog.numbers.toJson.pretty.toUTF8 := delivered _ _ (by simp [Catalog.artifacts])
  have ran := @run_readNumbers options.outDir ⟨tree, []⟩ _ stored
  rw [read?_toJson] at ran
  by_cases fits : ∀ pair ∈ catalog.numbers, pair.2 < UInt64.size
  · have loaded : (readNumbers options.outDir).run.run ⟨tree, []⟩ =
        (.ok catalog.numbers, ⟨tree, []⟩) := by
      rw [ran, if_pos fits]
    obtain ⟨stats, after, on, applied⟩ :=
      @on_inlineFiles ⟨options.outDir, options.outDir, build⟩ _ _ proper loaded
    have list := read_messages proper delivered applied
    refine ⟨.ok stats, after, on, list, fun _ => ⟨stats, rfl⟩, ?_⟩
    rw [Unchanged, read_script_iff proper delivered applied]
    exact ⟨fun h reached => h reached.1, fun h full => h ⟨full, fits⟩⟩
  · obtain ⟨failure, stopped⟩ : ∃ failure, (readNumbers options.outDir).run.run ⟨tree, []⟩ =
        (.error failure, ⟨tree, []⟩) := ⟨_, by rw [ran, if_neg fits]⟩
    have on : Run.on tree (inlineFiles ⟨options.outDir, options.outDir, build⟩) =
        (.error failure, ⟨tree, []⟩) := by
      rw [Run.on, inlineFiles, Run.run_bind, stopped]
    refine ⟨_, _, on, delivered.read_list, fun h => absurd h fits, ?_⟩
    exact iff_of_true delivered.read_script fun reached => absurd reached.2 fits

/-- An extraction with messages has written the list and the script of its messages. If numbers are then
put into the output directory, the list stays as it is. The script stays as it is exactly if none of the
places in it that are taken for placeholders has a number. Where no quote in a message stands in front of
the mark of a placeholder, these places are whole messages; without such marks there are none. -/
theorem script_unchanged_iff {stats : ExtractStats} {work : Work} (proper : tree.Proper)
    (ran : Run.on tree (extractFiles options) = (.ok stats, work)) (some : 0 < stats.messages) :
    (∃ catalog : Catalog, catalog.size = stats.messages ∧ Delivered options catalog work.tree) ∧
    ∀ catalog : Catalog, Delivered options catalog work.tree → ∀ build, ∃ result after,
      Run.on work.tree (inlineFiles ⟨options.outDir, options.outDir, build⟩) = (result, after) ∧
      (catalog.size ≤ UInt64.size → ∃ stats, result = .ok stats) ∧
      after.tree.read (options.outDir.child messagesName) =
        .ok catalog.messagesJson.compact.toUTF8 ∧
      (Unchanged options catalog after.tree ↔ (Reached options catalog →
        ∀ slot, .slot slot ∈ segments (catalog.script options.globalName).toList →
          catalog.numbers.number? slot.placeholder.value = none)) ∧
      ((∀ message ∈ catalog.messages, Unquoted message.toList) →
        Unquoted options.globalName.toList → (Unchanged options catalog after.tree ↔
          (Reached options catalog → Quiet catalog.numbers catalog.messages))) ∧
      ((∀ message ∈ catalog.messages, Calm message.toList) →
        Calm options.globalName.toList → Unchanged options catalog after.tree) := by
  have kept : work.tree.Proper := by
    have keeps := keeps_extractFiles options ⟨tree, []⟩ proper
    rwa [show (extractFiles options).run.run ⟨tree, []⟩ = _ from ran] at keeps
  obtain ⟨catalog, size, mid, written⟩ := exists_catalog ran some
  refine ⟨⟨catalog, size, delivered_of_written written⟩, fun catalog delivered build => ?_⟩
  obtain ⟨result, after, on, list, done, script⟩ := on_delivered kept delivered build
  have quiet (unquoted : ∀ message ∈ catalog.messages, Unquoted message.toList)
      (plain : Unquoted options.globalName.toList) : Unchanged options catalog after.tree ↔
        (Reached options catalog → Quiet catalog.numbers catalog.messages) := by
    rw [script, replaced_script_eq_zero_iff unquoted plain]
  refine ⟨result, after, on, fun small => done fun pair mem => ?_, list, ?_, quiet,
    fun calm plain => ?_⟩
  · exact lt_of_lt_of_le (number_lt_size mem) small
  · rw [script, replaced_scanned_eq_zero_iff]
  · rw [quiet (fun message mem => (calm message mem).unquoted) plain.unquoted]
    exact fun _ => quiet_of_calm calm

end

/-! ## One message -/

def oneText (message : String) : String :=
  "import \x7b localize \x7d from 'nls';\nlocalize('k', '" ++ message ++ "');"

def oneTree (message : String) : Tree :=
  ⟨.directory [("src", .directory [("a.ts", .file (oneText message).toUTF8)])], []⟩

def oneOptions : ExtractOptions := ⟨⟨["src"]⟩, ⟨["out"]⟩, [], [], [], "_NLS_MESSAGES"⟩

def oneEntry (message : String) : Entry := .ofCall .blank "a" (.plain "k") message

def oneCode (message : String) : String :=
  "import \x7b localize \x7d from 'nls';\nlocalize(\"%%NLS:a#k%%\", '" ++ message ++ "');"

def oneCatalog (message : String) : Catalog := ⟨[oneEntry message]⟩

def oneOutput (message : String) (artifacts : List (String × String)) : Tree :=
  ⟨.directory [("src", .directory [("a.ts", .file (oneText message).toUTF8)]),
    ("out", .directory (("a.ts", .file (oneCode message).toUTF8) ::
      artifacts.map fun (name, text) => (name, .file text.toUTF8)))], []⟩

def oneDone (message : String) : Tree :=
  oneOutput message ((oneCatalog message).artifacts "_NLS_MESSAGES")

section

variable {message : String}

theorem catalogOf_one : catalogOf [oneEntry message] = oneCatalog message :=
  ofEntries_eq (List.pairwise_singleton _ _) (List.pairwise_singleton _ _) (.refl _)

theorem run_writeAll_one (catalog : Catalog) :
    (writeAll oneOptions catalog).run.run ⟨oneOutput message [], []⟩ =
      (.ok (), ⟨oneOutput message (catalog.artifacts "_NLS_MESSAGES"), []⟩) := by
  rfl

theorem run_extractFile_one (extracted : extract .ts "a" (oneText message) =
      .ok ⟨oneCode message, [oneEntry message]⟩) :
    (extractFile oneOptions ⟨["src", "a.ts"]⟩).run.run ⟨oneTree message, []⟩ =
      (.ok [oneEntry message], ⟨oneOutput message [], []⟩) := by
  have read : (oneTree message).read ⟨["src", "a.ts"]⟩ = .ok (oneText message).toUTF8 := rfl
  have wrote : (Run.writeFile ⟨["out", "a.ts"]⟩ (oneCode message)).run.run ⟨oneTree message, []⟩ =
      (.ok (), ⟨oneOutput message [], []⟩) := rfl
  have module : (FileTree.Path.mk ["src", "a.ts"]).moduleId? oneOptions.sourceRoot = some "a" := by
    decide +kernel
  have dialect : Script.Dialect.ofExtension (FileTree.Path.mk ["src", "a.ts"]).extension? = .ts := by
    decide +kernel
  have inner : relativeTo oneOptions.sourceRoot ⟨["src", "a.ts"]⟩ = .ok ⟨["a.ts"]⟩ := rfl
  have prepared : prepare oneOptions (oneTree message) ⟨["src", "a.ts"]⟩ =
      .ok ⟨⟨["out", "a.ts"]⟩, ⟨oneCode message, [oneEntry message]⟩⟩ := by
    rw [prepare, readText_of_read read]
    show outputOf oneOptions ⟨["src", "a.ts"]⟩ (oneText message) = _
    rw [outputOf, module, dialect]
    dsimp only
    rw [extracted, inner]
    rfl
  rw [run_extractFile]
  dsimp only
  rw [prepared]
  dsimp only
  rw [Output.code, Output.entries, wrote]
  rfl

theorem on_extractFiles_one (extracted : extract .ts "a" (oneText message) =
      .ok ⟨oneCode message, [oneEntry message]⟩) :
    Run.on (oneTree message) (extractFiles oneOptions) =
      (.ok ⟨1, 1, 1, 1⟩, ⟨oneDone message, []⟩) := by
  have files : sourceFiles oneOptions (oneTree message) = [⟨["src", "a.ts"]⟩] :=
    orderPaths_eq_self (List.pairwise_singleton _ _)
  have turns : ((sourceFiles oneOptions (oneTree message)).mapM fun file => do
      return (file, ← (extractFile oneOptions file).attempt) :
        Run (List (Path × Except Failure (List Entry)))).run.run ⟨oneTree message, []⟩ =
          (.ok [(⟨["src", "a.ts"]⟩, .ok [oneEntry message])], ⟨oneOutput message [], []⟩) := by
    have first : (do return (⟨["src", "a.ts"]⟩,
        ← (extractFile oneOptions ⟨["src", "a.ts"]⟩).attempt) :
          Run (Path × Except Failure (List Entry))).run.run ⟨oneTree message, []⟩ =
            (.ok (⟨["src", "a.ts"]⟩, .ok [oneEntry message]), ⟨oneOutput message [], []⟩) := by
      rw [Run.run_bind, Run.run_attempt, run_extractFile_one extracted]
      rfl
    rw [files, List.mapM_cons, Run.run_bind, first]
    rfl
  have entries : ([(⟨["src", "a.ts"]⟩, .ok [oneEntry message])] :
      List (Path × Except Failure (List Entry))).map Prod.snd =
        [[oneEntry message]].map Except.ok := rfl
  rw [on_extractFiles turns, run_joined_ok entries]
  dsimp only
  rw [if_neg (by simp), countsOf, List.flatten_singleton, catalogOf_one, run_writeAll_one, files]
  rfl

theorem delivered_one : Delivered oneOptions (oneCatalog message) (oneDone message) :=
  delivered_of_written ((writes_writeAll oneOptions (oneCatalog message)).done (run_writeAll_one _))

theorem reached_one : Reached oneOptions (oneCatalog message) := by
  refine ⟨by decide, fun pair mem => lt_of_lt_of_le (number_lt_size mem) ?_⟩
  show 1 ≤ UInt64.size
  decide

end

theorem script_unchanged_iff_plain : (oneTree "m").Proper ∧
    Run.on (oneTree "m") (extractFiles oneOptions) = (.ok ⟨1, 1, 1, 1⟩, ⟨oneDone "m", []⟩) ∧
    Delivered oneOptions (oneCatalog "m") (oneDone "m") ∧
    ∀ build, ∃ stats after,
      Run.on (oneDone "m") (inlineFiles ⟨⟨["out"]⟩, ⟨["out"]⟩, build⟩) = (.ok stats, after) ∧
      Unchanged oneOptions (oneCatalog "m") after.tree := by
  have proper : (oneTree "m").Proper := by decide +kernel
  have extracted : extract .ts "a" (oneText "m") = .ok ⟨oneCode "m", [oneEntry "m"]⟩ := by
    decide +kernel
  have ran := on_extractFiles_one extracted
  refine ⟨proper, ran, delivered_one, fun build => ?_⟩
  obtain ⟨-, each⟩ := script_unchanged_iff proper ran Nat.one_pos
  obtain ⟨result, after, on, done, -, -, -, calm⟩ := each (oneCatalog "m") delivered_one build
  obtain ⟨stats, rfl⟩ := done (by decide)
  exact ⟨stats, after, on, calm (by decide) (by decide)⟩

def echo : String := "%%NLS:a#k%%"

theorem not_quiet_echo : ¬Quiet (oneCatalog echo).numbers (oneCatalog echo).messages := by
  have numbers : (oneCatalog echo).numbers = [(echo, 0)] := by
    have sorted : Numbers.Sorted [(echo, 0)] := List.pairwise_singleton _ _
    exact sorted.ofPairs_eq
  have messages : (oneCatalog echo).messages = [echo] := rfl
  rw [numbers, messages]
  intro quiet
  have known := quiet (shaped_placeholder .blank "a" "k")
  cases known

/-- Its number takes its place in the script. -/
theorem script_echoes : (oneTree echo).Proper ∧
    Run.on (oneTree echo) (extractFiles oneOptions) =
      (.ok ⟨1, 1, 1, 1⟩, ⟨oneDone echo, []⟩) ∧
    Delivered oneOptions (oneCatalog echo) (oneDone echo) ∧
    ∀ build, ∃ stats after,
      Run.on (oneDone echo) (inlineFiles ⟨⟨["out"]⟩, ⟨["out"]⟩, build⟩) = (.ok stats, after) ∧
      after.tree.read ⟨["out", "nls.messages.json"]⟩ = .ok "[\"%%NLS:a#k%%\"]".toUTF8 ∧
      after.tree.read ⟨["out", "nls.messages.js"]⟩ ≠
        .ok "globalThis._NLS_MESSAGES=[\"%%NLS:a#k%%\"];".toUTF8 := by
  have proper : (oneTree echo).Proper := by decide +kernel
  have extracted : extract .ts "a" (oneText echo) = .ok ⟨oneCode echo, [oneEntry echo]⟩ := by
    decide +kernel
  refine ⟨proper, on_extractFiles_one extracted, delivered_one, fun build => ?_⟩
  obtain ⟨result, after, on, list, done, script⟩ :=
    @on_delivered oneOptions (oneCatalog echo) (oneDone echo) (by decide +kernel) delivered_one build
  obtain ⟨stats, rfl⟩ := done reached_one.2
  have listText : (oneCatalog echo).messagesJson.compact = "[\"%%NLS:a#k%%\"]" := by decide +kernel
  have scriptText : (oneCatalog echo).script oneOptions.globalName =
      "globalThis._NLS_MESSAGES=[\"%%NLS:a#k%%\"];" := by
    decide +kernel
  rw [listText] at list
  rw [Unchanged, scriptText] at script
  have unquoted : ∀ message ∈ (oneCatalog echo).messages, Unquoted message.toList :=
    List.forall_mem_singleton.2 (by decide)
  rw [← scriptText, replaced_script_eq_zero_iff unquoted (by decide)] at script
  exact ⟨stats, after, on, list, fun same => not_quiet_echo (script.1 same reached_one)⟩

end BundlePrep.Job
