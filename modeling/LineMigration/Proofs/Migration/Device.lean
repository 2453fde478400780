import LineMigration.Proofs.Migration.Success

/-!
# Scratch files with a limit

Where the path of the scratch file leads to a device that takes so many bytes and no more, a
migration succeeds only if the device has taken all edited lines, one after another, and those are
no longer than what it takes. So an edited text that is longer is refused, and the file stays
(`migrate_device`); how the lines fall against the buffer does not matter.
-/

namespace LineMigration.Migration

open LineMigration.Stream LineMigration.FileSystem

variable {table : Table} {observer : Observer} {fs : FileSystem} {device source : Inode}
  {file scratch path : Text} {text : Text} {taken : Bytes} {capacity : Nat} {result : Result}

/-- Creating at a path that leads to a device leaves the device as it is, and every file. -/
theorem created_device (hsource : fs.node? source = some (.file (Text.utf8 text)))
    (hnode : fs.node? device = some (.device (some capacity) taken)) :
    (fs.modify device .truncated).node? device = some (.device (some capacity) taken) ∧
      linesOf (fs.modify device .truncated) source = (Text.lines text).map .ok := by
  have hne : device ≠ source := by
    rintro rfl
    rw [hsource] at hnode
    cases hnode
  refine ⟨by rw [node?_modify_same, hnode]; rfl, Reader.lines_of_utf8 ?_ rfl⟩
  simp [Reader.ofBytes, contents, node?_modify_of_ne _ hne, hsource, Node.contents]

/-- A migration succeeds only after the device has taken all edited lines. -/
theorem device_of_ok (hfs : fs.WellFormed) (habsolute : fs.absolute path = .ok file)
    (hscratch : Path.sibling file = some scratch)
    (hold : fs.read? path = some (Text.utf8 text)) (hdevice : fs.resolve scratch = .ok device)
    (hnode : fs.node? device = some (.device (some capacity) taken))
    (hok : (migrate table false observer fs path).outcome = .ok result) :
    (migrate table false observer fs path).fileSystem.node? device =
        some (.device (some capacity) (taken ++ editedBytes table (Text.lines text))) ∧
      (editedBytes table (Text.lines text)).length ≤ capacity - taken.length := by
  obtain ⟨upper, hform⟩ := isAbsoluteForm_of_absolute hfs habsolute
  rcases ended_of_migrate hfs habsolute hscratch with ⟨_, hrun, -⟩ |
    ⟨source, directory, name, hfile, hsite, hended⟩
  · rw [hrun] at hok
    cases hok
  obtain ⟨created, written, target, before, hswapped⟩ := hended.of_ok hfs hsite hfile hok
  obtain ⟨moved, victim, -, hmoved, -, hafter⟩ := hswapped.moves
  cases hswapped.create.symm.trans
    (create_of_resolve hfs hdevice (isDirectoryNode_eq_false hnode rfl))
  have hsource : fs.node? source = some (.file (Text.utf8 text)) := by
    obtain ⟨found, hpath, hfound⟩ := node?_of_read? hold
    rwa [hform.resolve_unique hfs hpath hfile] at hfound
  obtain ⟨hdeviceNode, hlines⟩ := created_device hsource hnode
  obtain rfl : before = Text.lines text :=
    (List.map_inj_right fun _ _ h ↦ Except.ok.inj h).1 (hswapped.lines.symm.trans hlines)
  have hfull : written.node? device =
      some (.device (some capacity) (taken ++ editedBytes table (Text.lines text))) := by
    rw [hswapped.filled, append, node?_modify_same, hdeviceNode]
    rfl
  refine ⟨?_, hswapped.within _ (by rw [hdeviceNode]; rfl)⟩
  rw [hafter]
  split
  · exact hfull
  · exact (sameFaces_relocate hmoved).node?_plain hfull rfl

/-- Where the scratch file is a device that takes at most so many bytes, a migration succeeds only
if the device has taken the edited text whole, and else leaves the file as it was; so it fails if
the edited text is longer than what the device takes. -/
theorem migrate_device (hfs : fs.WellFormed) (habsolute : fs.absolute path = .ok file)
    (hscratch : Path.sibling file = some scratch)
    (hold : fs.read? path = some (Text.utf8 text)) (hdevice : fs.resolve scratch = .ok device)
    (hnode : fs.node? device = some (.device (some capacity) taken)) :
    let run := migrate table false observer fs path
    let edited := Text.utf8 (editedLines table (Text.lines text))
    (∀ result, run.outcome = .ok result →
      run.fileSystem.node? device = some (.device (some capacity) (taken ++ edited))) ∧
    (∀ failure, run.outcome = .error failure →
      run.fileSystem.shownAt? path = fs.shownAt? path ∧
        run.fileSystem.read? path = some (Text.utf8 text)) ∧
    (capacity - taken.length < edited.length → ∃ failure, run.outcome = .error failure) := by
  refine ⟨?_, ?_, ?_⟩
  · intro result hok
    exact (device_of_ok hfs habsolute hscratch hold hdevice hnode hok).1
  · intro failure herror
    rw [← hold]
    exact keeps_file_of_error hfs herror
  · intro hlong
    cases houtcome : (migrate table false observer fs path).outcome with
    | error failure => exact ⟨failure, rfl⟩
    | ok result =>
      have hle := (device_of_ok hfs habsolute hscratch hold hdevice hnode houtcome).2
      exact absurd hlong (Nat.not_lt.2 hle)

/-- The scratch path is a link to a device. Two edited bytes fit into a device for two; from a
device for one they are refused, and the file stays. -/
theorem migrate_device_two_bytes :
    let fs : Nat → FileSystem := fun capacity ↦
      ⟨[.directory [(['f'], 1), (['f', '-', 'n', 'e', 'w'], 2), (['d'], 3)] root, .file [97, 10],
        .link ['d'], .device (some capacity) []], root⟩
    let run : Nat → Run := fun capacity ↦
      migrate [⟨['a'], ['b']⟩] false .silent (fs capacity) ['f']
    (fs 1).WellFormed ∧ (fs 2).WellFormed ∧
      (∃ failure, (run 1).outcome = .error failure ∧
        (run 1).fileSystem.read? ['f'] = some (Text.utf8 ['a', '\n'])) ∧
      (run 2).fileSystem.node? 3 = some (.device (some 2)
        ([] ++ Text.utf8 (editedLines [⟨['a'], ['b']⟩] (Text.lines ['a', '\n'])))) := by
  intro fs run
  have hone : (fs 1).WellFormed := by decide
  have htwo : (fs 2).WellFormed := by decide
  obtain ⟨-, hkept, hlong⟩ := @migrate_device [⟨['a'], ['b']⟩] .silent (fs 1) 3 ['/', 'f']
    ['/', 'f', '-', 'n', 'e', 'w'] ['f'] ['a', '\n'] [] 1 hone rfl rfl rfl rfl rfl
  obtain ⟨hfull, -, -⟩ := @migrate_device [⟨['a'], ['b']⟩] .silent (fs 2) 3 ['/', 'f']
    ['/', 'f', '-', 'n', 'e', 'w'] ['f'] ['a', '\n'] [] 2 htwo rfl rfl rfl rfl rfl
  obtain ⟨failure, hfailure⟩ := hlong (by decide)
  exact ⟨hone, htwo, ⟨failure, hfailure, (hkept failure hfailure).2⟩,
    hfull ⟨['/', 'f'], [⟨0, ['a'], ['b']⟩], true⟩ rfl⟩

end LineMigration.Migration
