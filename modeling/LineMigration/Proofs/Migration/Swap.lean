import LineMigration.Proofs.Migration.Course

/-!
# Failures that do not occur

An absolute path without a name to put an ending on leads to a directory or nowhere
(`isDirectoryNode_of_sibling_eq_none`), and so does one that ends in a slash; a migration that has
opened its file thus has a scratch path beside it. Once the scratch file is created, be it over
links, or be it the file itself, both last names stand for plain nodes, and the one can be moved
over the other (`rename_of_create`). So two of the failures of a migration are never met
(`sibling_and_swap_succeed`). This rests on what a file system is here: names, links and nodes
decide whether a move is refused, and there are no permissions or mount points that could.
-/

namespace LineMigration.Migration

open LineMigration.Stream LineMigration.FileSystem

variable {table : Table} {observer : Observer} {fs : FileSystem} {source directory : Inode}
  {name : Name} {file scratch path : Text} {failure : Failure}

/-- A dry run that fails has stopped at a line. -/
theorem exists_edit_of_rehearse_error
    (herror : (rehearse table observer fs source file).outcome = .error failure) :
    ∃ reason, failure = .edit file reason := by
  unfold rehearse at herror
  dsimp only at herror
  split at herror
  · next reason _ =>
    cases herror
    exact ⟨reason, rfl⟩
  · cases herror

/-- A replacement that fails does so before the move, and it had a scratch path. -/
theorem Ended.ne_swap {run : Run} (hfs : fs.WellFormed)
    (hsite : Site fs file scratch directory name source) (hfile : fs.resolve file = .ok source)
    (h : Ended table observer fs source file scratch run) (herror : run.outcome = .error failure) :
    (∀ file, failure ≠ .nameless file) ∧
      ∀ scratch file cause, failure ≠ .swap scratch file cause := by
  cases h with
  | uncreated | unedited | unflushed =>
    cases herror
    exact ⟨by simp, by simp⟩
  | unswapped hcreate _ _ _ hrename =>
    obtain ⟨swapped, hswapped⟩ := rename_of_create hfs hsite hfile hcreate _
    rw [hrename] at hswapped
    cases hswapped
  | swapped => cases herror

/-- An absolute path without a scratch path beside it leads to a directory, if it leads anywhere. -/
theorem isDirectoryNode_of_sibling_eq_none (hfs : fs.WellFormed)
    (habsolute : fs.absolute path = .ok file) (hnone : Path.sibling file = none)
    (hfile : fs.resolve file = .ok source) : fs.isDirectoryNode source = true := by
  rw [← Bool.not_eq_false]
  intro hplain
  obtain ⟨scratch, _, _, hscratch, -⟩ := site_of_resolve hfs habsolute hfile hplain
  rw [hnone] at hscratch
  cases hscratch

/-- A migration fails before it asks for a scratch path, or it has found a file with one. -/
theorem site_of_migrate (hfs : fs.WellFormed) (table : Table) (dryRun : Bool)
    (observer : Observer) (path : Text) :
    (∃ failure, migrate table dryRun observer fs path = .failed fs failure ∧
      ¬ failure.FollowsCreate ∧ ∀ file, failure ≠ .nameless file) ∨
    ∃ file scratch source directory name, Site fs file scratch directory name source ∧
      fs.resolve file = .ok source ∧ migrate table dryRun observer fs path =
        if dryRun then rehearse table observer fs source file
        else replaceThrough table observer fs source file scratch := by
  rcases migrate_cases table dryRun observer fs path with ⟨failure, hrun, hearly, hnameless⟩ |
    ⟨file, source, habsolute, hfile, hplain, -⟩
  · refine .inl ⟨failure, hrun, hearly, fun file heq ↦ ?_⟩
    obtain ⟨habsolute, hnone, source, hfile, hplain⟩ := hnameless file heq
    rw [isDirectoryNode_of_sibling_eq_none hfs habsolute hnone hfile] at hplain
    cases hplain
  · obtain ⟨scratch, directory, name, hscratch, hsite⟩ := site_of_resolve hfs habsolute hfile hplain
    exact .inr ⟨file, scratch, source, directory, name, hsite, hfile,
      migrate_eq habsolute hfile hplain hscratch dryRun⟩

/-- Where the absolute form of a path is opened and is no directory, it has a scratch path, with
the same names but for the ending of the last, in the same directory; and where the scratch file
was then created, the lines were edited and what was pending was passed on, the scratch file is
moved over the file. So no migration fails for want of a scratch path or as the move fails. -/
theorem sibling_and_swap_succeed (hfs : fs.WellFormed) (table : Table) (dryRun : Bool)
    (observer : Observer) (path : Text) :
    (∀ file source, fs.absolute path = .ok file → fs.isDirectory file = false →
      fs.openRead file = .ok source →
      ∃ scratch before name directory, Path.sibling file = some scratch ∧
        Route.ofPath file = ⟨before ++ [name], false⟩ ∧
        Route.ofPath scratch = ⟨before ++ [name ++ Path.scratchEnding], false⟩ ∧
        fs.nameOf? file = some (directory, name) ∧
        fs.nameOf? scratch = some (directory, name ++ Path.scratchEnding) ∧
        ∀ created target flushed, fs.create scratch = .ok (created, target) →
          let run := editAll table observer (.ofBytes (created.contents source))
            (writerTo created target)
          run.failure = none → run.writer.flush = (flushed, none) →
          ∃ swapped, (created.append target flushed.close.taken).rename scratch file =
            .ok swapped) ∧
    ∀ failure, (migrate table dryRun observer fs path).outcome = .error failure →
      (∀ file, failure ≠ .nameless file) ∧
        ∀ scratch file cause, failure ≠ .swap scratch file cause := by
  refine ⟨?_, ?_⟩
  · intro file source habsolute hdirectory hfile
    have hplain : fs.isDirectoryNode source = false := by
      rwa [isDirectory, show fs.resolve file = .ok source from hfile] at hdirectory
    obtain ⟨scratch, directory, name, hscratch, hsite⟩ := site_of_resolve hfs habsolute hfile hplain
    obtain ⟨before, hroute, hbeside⟩ := hsite.routes hfs habsolute hscratch
    refine ⟨scratch, before, name, directory, hscratch, hroute, hbeside, hsite.fileName,
      hsite.scratchName, ?_⟩
    intro created target flushed hcreate run _ _
    exact rename_of_create hfs hsite hfile hcreate flushed.close.taken
  · intro failure herror
    rcases site_of_migrate hfs table dryRun observer path with ⟨early, hrun, hfollows, hnameless⟩ |
      ⟨file, scratch, source, directory, name, hsite, hfile, hrun⟩
    · rw [hrun] at herror
      cases herror
      exact ⟨hnameless, fun _ _ _ heq ↦ hfollows (heq ▸ trivial)⟩
    · rw [hrun] at herror
      cases dryRun with
      | true =>
        -- A dry run has no scratch file: it fails in a line only.
        obtain ⟨reason, rfl⟩ := exists_edit_of_rehearse_error herror
        exact ⟨by simp, by simp⟩
      | false =>
        have hended := ended_of_replaceThrough table observer fs source file scratch
        exact hended.ne_swap hfs hsite hfile herror

/-- The path is a link to its own scratch path, where there is a file: the file loses its bytes
before they are read, and the move succeeds. A path that ends in a slash is not opened. -/
theorem sibling_and_swap_succeed_link :
    let fs : FileSystem := ⟨[.directory [(['l'], 1), (['l', '-', 'n', 'e', 'w'], 2)] root,
      .link ['l', '-', 'n', 'e', 'w'], .file [97, 10]], root⟩
    let scratch := ['/', 'l', '-', 'n', 'e', 'w']
    let failed := migrate [] false .silent fs ['l', '/']
    fs.WellFormed ∧ fs.absolute ['l'] = .ok ['/', 'l'] ∧ fs.isDirectory ['/', 'l'] = false ∧
      fs.openRead ['/', 'l'] = .ok 2 ∧ Path.sibling ['/', 'l'] = some scratch ∧
      (∃ created swapped, fs.create scratch = .ok (created, 2) ∧
        created.rename scratch ['/', 'l'] = .ok swapped) ∧
      failed.outcome = .error (.openFile ['/', 'l', '/'] (.system .notDirectory)) ∧
      ∀ file, Failure.openFile ['/', 'l', '/'] (.system .notDirectory) ≠ .nameless file := by
  intro fs scratch failed
  have hfs : fs.WellFormed := by decide
  have hcreate : fs.create scratch = .ok (fs.modify 2 Node.truncated, 2) := rfl
  have hfailed : failed.outcome = .error (.openFile ['/', 'l', '/'] (.system .notDirectory)) := rfl
  obtain ⟨hsucceeds, -⟩ := sibling_and_swap_succeed hfs [] false .silent ['l']
  obtain ⟨beside, _, _, _, hsibling, -, -, -, -, hmoves⟩ := hsucceeds ['/', 'l'] 2 rfl rfl rfl
  obtain rfl : scratch = beside := Option.some.inj hsibling
  obtain ⟨swapped, hswapped⟩ := hmoves _ 2 _ hcreate rfl rfl
  obtain ⟨-, hnever⟩ := sibling_and_swap_succeed hfs [] false .silent ['l', '/']
  exact ⟨hfs, rfl, rfl, rfl, rfl, ⟨_, swapped, hcreate, hswapped⟩, hfailed, (hnever _ hfailed).1⟩

end LineMigration.Migration
