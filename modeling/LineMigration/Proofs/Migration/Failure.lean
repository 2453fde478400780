import LineMigration.Proofs.Migration.Course

/-!
# Failing migrations

A migration that fails leaves the entry that its path names and the bytes that the path reads as
they were, whatever stands at the path of the scratch file (`keeps_file_of_error`). If that was
nothing, or a file without another name, then the scratch file has received the lines before the
one that failed, and nothing else in the tree has changed (`migrate_error_atomic`). A regular file
takes all bytes, so what is pending when the edit stops always reaches the scratch file.
-/

namespace LineMigration.Migration

open LineMigration.Stream LineMigration.FileSystem

variable {table : Table} {dryRun : Bool} {observer : Observer} {fs : FileSystem} {source : Inode}
  {file path : Text} {failure : Failure}

/-- What can be read of a node that has content is that content. -/
theorem read?_of_contents (hfile : fs.resolve file = .ok source) (hne : fs.contents source ≠ []) :
    fs.read? file = some (fs.contents source) := by
  unfold contents at hne ⊢
  cases hnode : fs.node? source with
  | none => simp [hnode] at hne
  | some node =>
    cases node with
    | file bytes => simp [read?, hfile, hnode, Node.contents]
    | directory => simp [hnode, Node.contents] at hne
    | link => simp [hnode, Node.contents] at hne
    | device => simp [hnode, Node.contents] at hne

/-- What a path reads is the content of the regular file that it resolves to. -/
theorem node?_of_read? {bytes : Bytes} (h : fs.read? path = some bytes) :
    ∃ source, fs.resolve path = .ok source ∧ fs.node? source = some (.file bytes) := by
  unfold read? at h
  split at h
  · next source hpath =>
    split at h
    · next found hnode =>
      cases h
      exact ⟨source, hpath, hnode⟩
    · cases h
  · cases h

/-- A migration that fails leaves the tree, or it has written to another node than that of the
file. -/
theorem writesTo_of_error (hfs : fs.WellFormed)
    (herror : (migrate table dryRun observer fs path).outcome = .error failure) :
    (migrate table dryRun observer fs path).fileSystem = fs ∨
      ∃ file upper source target, IsAbsoluteForm fs path file upper ∧
        fs.resolve file = .ok source ∧ fs.isDirectoryNode source = false ∧ source ≠ target ∧
        (∀ text, fs.node? target ≠ some (.link text)) ∧
        WritesTo target fs (migrate table dryRun observer fs path).fileSystem := by
  rcases migrate_cases table dryRun observer fs path with ⟨_, hrun, -⟩ |
    ⟨file, source, habsolute, hfile, hplain, ⟨-, hrun⟩ | ⟨-, scratch, hscratch, hrun⟩⟩
  · rw [hrun]
    exact .inl rfl
  · rw [hrun, fileSystem_rehearse]
    exact .inl rfl
  · rw [hrun] at herror ⊢
    obtain ⟨_, directory, name, hsibling, hsite⟩ := site_of_resolve hfs habsolute hfile hplain
    cases hscratch.symm.trans hsibling
    obtain ⟨upper, hform⟩ := isAbsoluteForm_of_absolute hfs habsolute
    have hended := ended_of_replaceThrough table observer fs source file scratch
    rcases hended.of_error hfs hsite hfile herror with
      ⟨hkept, -⟩ | ⟨created, target, bytes, hcreate, hne, hwritten, -⟩
    · exact .inl hkept
    · have hcreated := (created_of_create hcreate).2
      rw [hwritten]
      exact .inr ⟨file, upper, source, target, hform, hfile, hplain, hne, hcreated.not_link hfs,
        hcreated.writesTo hfs bytes⟩

/-- A migration that fails leaves the entry at its path, and what the path reads, as they were. -/
theorem keeps_file_of_error (hfs : fs.WellFormed)
    (herror : (migrate table dryRun observer fs path).outcome = .error failure) :
    (migrate table dryRun observer fs path).fileSystem.shownAt? path = fs.shownAt? path ∧
      (migrate table dryRun observer fs path).fileSystem.read? path = fs.read? path := by
  rcases writesTo_of_error hfs herror with
    hkept | ⟨file, upper, source, target, hform, hfile, hplain, hne, hlink, hwrites⟩
  · rw [hkept]
    exact ⟨rfl, rfl⟩
  · exact ⟨hwrites.shownAt?_eq hfs hform hfile hplain hne hlink,
      hwrites.read?_eq hfs hform hfile hplain hne⟩

/-- A migration that fails leaves the entry at its path and what the path reads as they were. If
the path of the scratch file named nothing, or a file without another name, and the scratch file
was created, then a line of the file has failed, the scratch file has received the lines before it
as they are edited, and nothing else in the tree has changed. -/
theorem migrate_error_atomic (hfs : fs.WellFormed)
    (herror : (migrate table dryRun observer fs path).outcome = .error failure) :
    let after := (migrate table dryRun observer fs path).fileSystem
    (after.shownAt? path = fs.shownAt? path ∧ after.read? path = fs.read? path) ∧
      ∀ file scratch, fs.absolute path = .ok file → Path.sibling file = some scratch →
        (fs.entryAt? scratch = none ∨ fs.IsLoneFile scratch) → dryRun = false →
        failure.FollowsCreate →
        ∃ old before failing rest reason, failure = .edit file reason ∧
          fs.read? file = some old ∧
          (Reader.ofBytes old).lines = before.map .ok ++ failing :: rest ∧
          AdmitsAll table observer before ∧ FailsAt table observer before failing reason ∧
          after.read? scratch = some (editedBytes table before) ∧
          UnchangedBut (fun directory name ↦ fs.nameOf? scratch = some (directory, name))
            fs after := by
  refine ⟨keeps_file_of_error hfs herror, ?_⟩
  intro file scratch habsolute hscratch hlone hdry hfollows
  subst hdry
  rcases ended_of_migrate hfs habsolute hscratch with ⟨_, hrun, hearly⟩ |
    ⟨source, directory, name, hfile, hsite, hended⟩
  · rw [hrun] at herror
    cases herror
    exact absurd hfollows hearly
  · rcases hended.of_error hfs hsite hfile herror with
      ⟨-, hearly⟩ | ⟨created, target, bytes, hcreate, hne, hwritten, hfails⟩
    · exact absurd hfollows hearly
    obtain ⟨hcheck, hcreated⟩ := created_of_create hcreate
    have hsole : SoleFile created directory (name ++ Path.scratchEnding) target [] :=
      hcreated.soleFile hfs hcheck hsite.scratchName hsite.scratchSlash hlone
    obtain ⟨before, failing, rest, reason, rfl, hlines, hadmits, hat, rfl⟩ :=
      hfails (by rw [hsole.node]; rfl)
    have hwrites := hcreated.writesTo hfs (editedBytes table before)
    have hfull := hsole.append (editedBytes table before)
    have hcontents : created.contents source = fs.contents source :=
      hcreated.touchesOnly.contents_eq hne hsite.plain
    -- A line has failed, so the file was not empty.
    have hold : fs.contents source ≠ [] := by
      intro hnil
      rw [linesOf_eq_nil (hcontents.trans hnil)] at hlines
      simp at hlines
    rw [hwritten]
    refine ⟨fs.contents source, before, failing, rest, reason, rfl, read?_of_contents hfile hold,
      by rw [← hcontents]; exact hlines, hadmits, hat, ?_, ?_⟩
    · exact hfull.read?_eq hwrites.wellFormed hcheck
        ((hwrites.sameDirectories.nameOf?_eq hfs hwrites.wellFormed _).trans hsite.scratchName)
        hsite.scratchSlash
    · have hframe := hfull.unchangedBut hwrites.touches
      refine ⟨hframe.workingDirectory, hframe.parent, ?_⟩
      intro asked askedName hother
      refine hframe.shown asked askedName ?_
      rintro ⟨rfl, rfl⟩
      exact hother hsite.scratchName

/-- A second line that is not UTF-8, beside the leftovers of another run: the scratch file holds
the first line as it is edited. -/
theorem migrate_error_atomic_invalid_line :
    let fs : FileSystem :=
      ⟨[.directory [(['f'], 1), (['f', '-', 'n', 'e', 'w'], 2)] root, .file [97, 10, 255],
        .file [122, 122, 122]], root⟩
    let scratch := ['/', 'f', '-', 'n', 'e', 'w']
    let run := migrate [⟨['a'], ['b']⟩] false .silent fs ['f']
    fs.WellFormed ∧ run.outcome = .error (.edit ['/', 'f'] (.read 1 .invalidUtf8)) ∧
      run.fileSystem.read? ['f'] = fs.read? ['f'] ∧
      ∃ before, run.fileSystem.read? scratch = some (editedBytes [⟨['a'], ['b']⟩] before) := by
  intro fs scratch run
  have hfs : fs.WellFormed := by decide
  have herror : run.outcome = .error (.edit ['/', 'f'] (.read 1 .invalidUtf8)) := rfl
  obtain ⟨⟨-, hread⟩, hscratch⟩ := migrate_error_atomic hfs herror
  have hlone : fs.IsLoneFile scratch := ⟨2, [122, 122, 122], rfl, rfl, rfl⟩
  obtain ⟨_, before, _, _, _, _, _, _, _, _, hafter, _⟩ :=
    hscratch ['/', 'f'] scratch rfl rfl (Or.inr hlone) rfl trivial
  exact ⟨hfs, herror, hread, before, hafter⟩

end LineMigration.Migration
