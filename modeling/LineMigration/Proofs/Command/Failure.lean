import LineMigration.Command.Run
import LineMigration.Proofs.Command.Arguments
import LineMigration.Proofs.Migration.Bytes

/-!
# Runs that fail

`Kept` says that the FILE of a command line reads as before, and that without a FILE nothing has
changed. A run fails as its execution does, which keeps the FILE (`kept_of_execute_error`), or as
its result cannot be printed. In text mode every change is printed before the file is replaced, so
with an output that takes nothing only a file without changes is, and reads as before
(`text_failure_keeps`). In JSON mode nothing is printed before the end: the file has been edited
when the envelope cannot be printed, and stays so (`json_failure_keeps_unless_full`). Failing or
not, a run does steps on the tree (`steps_run`), so the tree stays well formed.
-/

namespace LineMigration.Command

open LineMigration.Stream LineMigration.FileSystem LineMigration.Migration

variable {fs after : FileSystem} {arguments : Arguments} {observer : Observer} {stdout : Stdout}
  {path : Text} {words : List Text} {file? : Option Text} {output : Output} {fault : Fault}

/-- What is named reads as before, and if nothing is named then nothing has changed. -/
structure Kept (file? : Option Text) (fs after : FileSystem) : Prop where
  bytes : ∀ path, file? = some path → after.bytesAt? path = fs.bytesAt? path
  tree : file? = none → after = fs

theorem Kept.refl (file? : Option Text) (fs : FileSystem) : Kept file? fs fs :=
  ⟨fun _ _ ↦ rfl, fun _ ↦ rfl⟩

theorem Kept.of_bytes (h : after.bytesAt? path = fs.bytesAt? path) : Kept (some path) fs after :=
  ⟨fun _ heq ↦ Option.some.inj heq ▸ h, fun heq ↦ by cases heq⟩

/-! ## Executions -/

/-- Only a command line with a FILE, and without the option for the table, is one of a
migration. -/
theorem file_of_taskOf_migrate (h : taskOf arguments = .ok (.migrate path)) :
    arguments.file = some path := by
  unfold taskOf at h
  split at h
  · cases h
  · cases h
  · cases h
  · next hfile =>
    cases h
    exact hfile

/-- An execution is a migration of the FILE, or it changes nothing. -/
theorem execute_cases (fs : FileSystem) (arguments : Arguments) (observer : Observer) :
    (execute fs arguments observer).fileSystem = fs ∨
      ∃ path, arguments.file = some path ∧ execute fs arguments observer =
        let run := migrate .v3 arguments.dryRun observer fs path
        ⟨run.fileSystem, run.told,
          match run.outcome with
          | .ok result => .ok (outputOf arguments.dryRun result)
          | .error failure => .error failure.fault⟩ := by
  unfold execute
  cases htask : taskOf arguments with
  | error fault => exact .inl rfl
  | ok task =>
    cases task with
    | list => exact .inl rfl
    | migrate path => exact .inr ⟨path, file_of_taskOf_migrate htask, rfl⟩

/-- An execution does steps on the tree. -/
theorem steps_execute (fs : FileSystem) (arguments : Arguments) (observer : Observer) :
    Steps fs (execute fs arguments observer).fileSystem := by
  rcases execute_cases fs arguments observer with hkept | ⟨path, -, hrun⟩
  · rw [hkept]
  · rw [hrun]
    exact steps_migrate ..

/-- An execution that fails keeps the FILE. -/
theorem kept_of_execute_error (hfs : fs.WellFormed)
    (herror : (execute fs arguments observer).outcome = .error fault) :
    Kept arguments.file fs (execute fs arguments observer).fileSystem := by
  rcases execute_cases fs arguments observer with hkept | ⟨path, hfile, hrun⟩
  · rw [hkept]
    exact .refl ..
  · rw [hrun] at herror ⊢
    rw [hfile]
    dsimp only at herror ⊢
    split at herror
    · cases herror
    · next houtcome => exact .of_bytes (bytesAt?_of_error hfs houtcome)

/-- An execution that succeeds keeps the FILE, or it has replaced it. -/
theorem kept_or_replaced_of_execute_ok
    (hok : (execute fs arguments observer).outcome = .ok output) :
    Kept arguments.file fs (execute fs arguments observer).fileSystem ∨
      ∃ path result, arguments.file = some path ∧
        (migrate .v3 false observer fs path).outcome = .ok result ∧
        (execute fs arguments observer).fileSystem =
          (migrate .v3 false observer fs path).fileSystem := by
  rcases execute_cases fs arguments observer with hkept | ⟨path, hfile, hrun⟩
  · rw [hkept]
    exact .inl (.refl ..)
  · rw [hrun] at hok ⊢
    dsimp only at hok ⊢
    split at hok
    · next result houtcome =>
      cases hdry : arguments.dryRun with
      | true =>
        rw [fileSystem_migrate_dryRun]
        exact .inl (.refl ..)
      | false =>
        rw [hdry] at houtcome
        exact .inr ⟨path, result, hfile, houtcome, rfl⟩
    · cases hok

/-! ## Standard output -/

/-- Only a full output refuses anything. -/
theorem eq_full_of_refusal {piece : Text} (h : stdout.refusal piece = some fault) :
    stdout = .full := by
  cases stdout with
  | full => rfl
  | healthy =>
    rw [Stdout.refusal_healthy] at h
    cases h
  | closed =>
    rw [Stdout.refusal_closed] at h
    cases h

/-- A full output refuses every change, as the block for it is not empty. -/
theorem log_full_ne_none (told : List Change) (change : Change) :
    Stdout.full.log told change ≠ none := by
  have hpiece : ∃ c rest, change.text = c :: rest := ⟨'l', _, rfl⟩
  obtain ⟨c, rest, htext⟩ := hpiece
  simp [Stdout.log, htext, Stdout.refusal, Stdout.answer, faultOfPrint]

/-! ## Processes -/

/-- A process in text mode leaves what its execution leaves. -/
theorem fileSystem_runText (fs : FileSystem) (stdout : Stdout) (arguments : Arguments) :
    (runText fs stdout arguments).fileSystem =
      (execute fs arguments stdout.log).fileSystem := by
  unfold runText
  dsimp only
  split <;> split <;> rfl

/-- So does a process in JSON mode. -/
theorem fileSystem_runJson (fs : FileSystem) (stdout : Stdout) (arguments : Arguments) :
    (runJson fs stdout arguments).fileSystem = (execute fs arguments .silent).fileSystem := by
  unfold runJson
  dsimp only
  split <;> rfl

/-- A process in text mode that fails keeps the FILE. -/
theorem kept_of_runText (hfs : fs.WellFormed)
    (hapart : ∀ path, arguments.file = some path → fs.ScratchApart path)
    (hexit : (runText fs stdout arguments).exitCode ≠ 0) :
    Kept arguments.file fs (runText fs stdout arguments).fileSystem := by
  rw [fileSystem_runText]
  cases houtcome : (execute fs arguments stdout.log).outcome with
  | error fault => exact kept_of_execute_error hfs houtcome
  | ok output =>
    rcases kept_or_replaced_of_execute_ok houtcome with hkept | ⟨path, result, hfile, hok, hafter⟩
    · exact hkept
    rw [hafter, hfile]
    -- All went well before the closing text was printed.
    cases hrefusal : stdout.refusal output.text with
    | none => simp [runText, houtcome, hrefusal] at hexit
    | some fault =>
      obtain rfl := eq_full_of_refusal hrefusal
      -- No change was told, so the file was replaced by what it held.
      refine .of_bytes ?_
      rcases bytesAt?_of_ok hfs (hapart path hfile) hok with
        ⟨hbefore, hnone⟩ | ⟨text, hbefore, hedited, hchanges⟩
      · exact hnone.trans hbefore.symm
      · rw [changes_eq_nil_of_refuses log_full_ne_none hok] at hchanges
        rw [hbefore, hedited, editedLines_of_changesFrom_eq_nil hchanges.symm, Text.flatten_lines]

/-- A process in JSON mode that fails keeps the FILE, or its output is full and the FILE was
edited. -/
theorem kept_or_edited_of_runJson (hfs : fs.WellFormed)
    (hapart : ∀ path, arguments.file = some path → fs.ScratchApart path)
    (hexit : (runJson fs stdout arguments).exitCode ≠ 0) :
    Kept arguments.file fs (runJson fs stdout arguments).fileSystem ∨
      stdout = .full ∧ ∃ path text, arguments.file = some path ∧
        fs.bytesAt? path = some (Text.utf8 text) ∧
        (runJson fs stdout arguments).fileSystem.bytesAt? path =
          some (Text.utf8 (editedLines .v3 (Text.lines text))) := by
  rw [fileSystem_runJson]
  cases houtcome : (execute fs arguments .silent).outcome with
  | error fault => exact .inl (kept_of_execute_error hfs houtcome)
  | ok output =>
    rcases kept_or_replaced_of_execute_ok houtcome with hkept | ⟨path, result, hfile, hok, hafter⟩
    · exact .inl hkept
    rw [hafter]
    rcases bytesAt?_of_ok hfs (hapart path hfile) hok with
      ⟨hbefore, hnone⟩ | ⟨text, hbefore, hedited, -⟩
    · rw [hfile]
      exact .inl (.of_bytes (hnone.trans hbefore.symm))
    · refine .inr ⟨?_, path, text, hfile, hbefore, hedited⟩
      -- All went well before the envelope was printed.
      cases hrefusal : stdout.refusal (payload (execute fs arguments .silent).outcome) with
      | some fault => exact eq_full_of_refusal hrefusal
      | none =>
        rw [houtcome] at hrefusal
        simp [runJson, houtcome, hrefusal, exitCodeOf] at hexit

/-- A process changes nothing, or it is that of a run in one of the modes. -/
theorem run_cases (fs : FileSystem) (stdout : Stdout) (words : List Text) :
    (run fs stdout words).fileSystem = fs ∨
      ∃ arguments, parse words = .ok (.run arguments) ∧ run fs stdout words =
        if arguments.json then runJson fs stdout arguments else runText fs stdout arguments := by
  unfold run
  cases parse words with
  | error complaint => exact .inl rfl
  | ok invocation =>
    cases invocation with
    | run arguments => exact .inr ⟨arguments, rfl, rfl⟩
    | help long => cases long <;> exact .inl rfl
    | version => exact .inl rfl

/-- Whatever its command line and however it ends, a process does steps on the tree: from a
well-formed one it goes to a well-formed one. -/
theorem steps_run (fs : FileSystem) (stdout : Stdout) (words : List Text) :
    Steps fs (run fs stdout words).fileSystem := by
  rcases run_cases fs stdout words with hkept | ⟨arguments, -, hrun⟩
  · rw [hkept]
  · rw [hrun]
    split
    · rw [fileSystem_runJson]
      exact steps_execute ..
    · rw [fileSystem_runText]
      exact steps_execute ..

/-- If a command line that does not ask for JSON ends with another exit code than zero, whatever
the standard output is, then its FILE, if it has one, reads as before, and if it has none then
nothing has changed. The scratch path of the FILE must lead neither to what the FILE leads to nor
to a device. -/
theorem text_failure_keeps (hfs : fs.WellFormed) (htext : asksJson words = false)
    (hapart : ∀ path, fileOf? words = some path → fs.ScratchApart path)
    (hexit : (run fs stdout words).exitCode ≠ 0) :
    Kept (fileOf? words) fs (run fs stdout words).fileSystem := by
  rcases run_cases fs stdout words with hkept | ⟨arguments, hparse, hrun⟩
  · rw [hkept]
    exact .refl ..
  · simp only [asksJson, hparse] at htext
    simp only [fileOf?, hparse] at hapart ⊢
    rw [hrun, htext] at hexit ⊢
    exact kept_of_runText hfs hapart hexit

/-- A file without a key, and a full output: the file is replaced before the closing line cannot
be printed, by what it held. -/
theorem text_failure_keeps_replaced :
    let fs : FileSystem := ⟨[.directory [(['f'], 1)] root, .file [97, 10]], root⟩
    let words : List Text := [['f']]
    let process := run fs .full words
    fs.WellFormed ∧ "--json".toList ∉ words ∧ fs.ScratchApart ['f'] ∧ process.exitCode = 1 ∧
      fs.entryAt? ['f'] = some 1 ∧ process.fileSystem.entryAt? ['f'] = some 2 ∧
      process.fileSystem.bytesAt? ['f'] = fs.bytesAt? ['f'] := by
  intro fs words process
  have hfs : fs.WellFormed := by decide
  have hjson : "--json".toList ∉ words := by decide
  have hapart : fs.ScratchApart ['f'] :=
    scratchApart_of_resolve_error (rfl : fs.absolute ['f'] = .ok ['/', 'f']) rfl rfl
  have hend : (process.exitCode, process.fileSystem.entryAt? ['f']) = (1, some 2) := by
    decide +kernel
  obtain ⟨hexit, hentry⟩ := Prod.mk.inj hend
  have hfile : ∀ path, fileOf? words = some path → fs.ScratchApart path := by
    intro path hpath
    obtain rfl : ['f'] = path := Option.some.inj hpath
    exact hapart
  have hkept := text_failure_keeps hfs (asksJson_eq_false_of_not_mem hjson) hfile
    (show process.exitCode ≠ 0 from hexit ▸ Nat.one_ne_zero)
  exact ⟨hfs, hjson, hapart, hexit, rfl, hentry, hkept.bytes ['f'] rfl⟩

/-- If a command line ends with another exit code than zero, then its FILE reads as before, unless
it asks for JSON, the standard output is full, and the FILE was edited before the envelope could
not be printed. -/
theorem json_failure_keeps_unless_full (hfs : fs.WellFormed)
    (hapart : ∀ path, fileOf? words = some path → fs.ScratchApart path)
    (hexit : (run fs stdout words).exitCode ≠ 0) :
    Kept (fileOf? words) fs (run fs stdout words).fileSystem ∨
      asksJson words = true ∧ stdout = .full ∧ ∃ path text, fileOf? words = some path ∧
        fs.bytesAt? path = some (Text.utf8 text) ∧
        (run fs stdout words).fileSystem.bytesAt? path =
          some (Text.utf8 (editedLines .v3 (Text.lines text))) := by
  rcases run_cases fs stdout words with hkept | ⟨arguments, hparse, hrun⟩
  · rw [hkept]
    exact .inl (.refl ..)
  · simp only [asksJson, fileOf?, hparse] at hapart ⊢
    cases hjson : arguments.json with
    | false =>
      rw [hrun, hjson] at hexit ⊢
      exact .inl (kept_of_runText hfs hapart hexit)
    | true =>
      rw [hrun, hjson] at hexit ⊢
      exact (kept_or_edited_of_runJson hfs hapart hexit).imp_right fun h ↦ ⟨rfl, h⟩

/-- A reader that has gone, and a line that is not UTF-8: the file stays. -/
theorem json_failure_keeps_unless_full_closed :
    let fs : FileSystem := ⟨[.directory [(['f'], 1)] root, .file [255]], root⟩
    let words : List Text := ["--json".toList, ['f']]
    let process := run fs .closed words
    fs.WellFormed ∧ fs.ScratchApart ['f'] ∧ process.exitCode = 1 ∧
      process.fileSystem.bytesAt? ['f'] = fs.bytesAt? ['f'] := by
  intro fs words process
  have hfs : fs.WellFormed := by decide
  have hapart : fs.ScratchApart ['f'] :=
    scratchApart_of_resolve_error (rfl : fs.absolute ['f'] = .ok ['/', 'f']) rfl rfl
  have hexit : process.exitCode = 1 := by decide +kernel
  have hfile : ∀ path, fileOf? words = some path → fs.ScratchApart path := by
    intro path hpath
    obtain rfl : ['f'] = path := Option.some.inj hpath
    exact hapart
  rcases json_failure_keeps_unless_full hfs hfile
    (show process.exitCode ≠ 0 from hexit ▸ Nat.one_ne_zero) with hkept | ⟨-, hfull, -⟩
  · exact ⟨hfs, hapart, hexit, hkept.bytes ['f'] rfl⟩
  · cases hfull

/-- A full output in JSON mode: the run fails, and the file has been edited. -/
theorem json_failure_edits_file :
    let fs : FileSystem :=
      ⟨[.directory [(['f'], 1)] root, .file (Text.utf8 "ghNotify()\n".toList)], root⟩
    let process := run fs .full ["--json".toList, ['f']]
    fs.WellFormed ∧ fs.ScratchApart ['f'] ∧ process.exitCode = 1 ∧
      fs.bytesAt? ['f'] = some (Text.utf8 "ghNotify()\n".toList) ∧
      process.fileSystem.bytesAt? ['f'] = some (Text.utf8 "gitUtils.ghNotify()\n".toList) := by
  intro fs process
  have hapart : fs.ScratchApart ['f'] :=
    scratchApart_of_resolve_error (rfl : fs.absolute ['f'] = .ok ['/', 'f']) rfl rfl
  have hend : (process.exitCode, process.fileSystem.bytesAt? ['f']) =
      (1, some (Text.utf8 "gitUtils.ghNotify()\n".toList)) := by decide +kernel
  obtain ⟨hexit, hedited⟩ := Prod.mk.inj hend
  exact ⟨by decide, hapart, hexit, rfl, hedited⟩

end LineMigration.Command
