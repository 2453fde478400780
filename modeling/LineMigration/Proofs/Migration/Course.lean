import LineMigration.Migration
import LineMigration.Proofs.Stream.Course
import LineMigration.Proofs.FileSystem.Site
import LineMigration.Proofs.FileSystem.Steps

/-!
# The course of a migration

`Ended` lists every way in which the replacement of a file can end, each with the tree that it
leaves, and `migrate_cases` says how far a migration comes before it. The lines that were passed
are always given by `Stream.Reached`.

`Ended.of_error` and `Ended.of_ok` say what the two kinds of end have in common. The move at the
end of a replacement does not fail; and where the scratch file is the file itself, so that nothing
is left to read, no step does. However a migration ends, it has done steps of the file system and
nothing else (`steps_migrate`).
-/

namespace LineMigration.Migration

open LineMigration.Stream LineMigration.FileSystem

/-- The failures of a migration after its scratch file was created. -/
def Failure.FollowsCreate : Failure → Prop
  | .edit _ _ => True
  | .flush _ _ => True
  | .swap _ _ _ => True
  | _ => False

instance : (failure : Failure) → Decidable failure.FollowsCreate
  | .edit _ _ => inferInstanceAs (Decidable True)
  | .flush _ _ => inferInstanceAs (Decidable True)
  | .swap _ _ _ => inferInstanceAs (Decidable True)
  | .resolve _ _ => inferInstanceAs (Decidable False)
  | .directory _ => inferInstanceAs (Decidable False)
  | .openFile _ _ => inferInstanceAs (Decidable False)
  | .nameless _ => inferInstanceAs (Decidable False)
  | .create _ _ => inferInstanceAs (Decidable False)

variable {table : Table} {observer : Observer} {fs created : FileSystem} {source target : Inode}
  {file scratch path : Text}

/-- The lines that are read of a file. -/
def linesOf (fs : FileSystem) (source : Inode) : List (Except Cause Text) :=
  (Reader.ofBytes (fs.contents source)).lines

/-- Every way in which the replacement of a file can end. -/
inductive Ended (table : Table) (observer : Observer) (fs : FileSystem) (source : Inode)
    (file scratch : Text) : Run → Prop where
  /-- No scratch file could be created. -/
  | uncreated {cause : Cause} :
      Ended table observer fs source file scratch (.failed fs (.create scratch cause))
  /-- The edit stopped before the end of the file. -/
  | unedited {created : FileSystem} {target : Inode} {run : Stream.Run Buffered}
      {failure : Stream.Failure} : fs.create scratch = .ok (created, target) →
      Stopped table observer (writerTo created target) (linesOf created source) run →
      run.failure = some failure →
      Ended table observer fs source file scratch
        ⟨created.append target run.writer.close.taken, run.changes, .error (.edit file failure)⟩
  /-- All lines were edited, and what was pending could not be passed on. -/
  | unflushed {created : FileSystem} {target : Inode} {before : List Text}
      {calls : List (Sighting Buffered)} {writer stopped : Buffered} {cause : Cause} :
      fs.create scratch = .ok (created, target) → linesOf created source = before.map .ok →
      Reached table observer (writerTo created target) before calls writer →
      writer.flush = (stopped, some cause) →
      Ended table observer fs source file scratch
        ⟨created.append target stopped.close.taken, calls.map (·.change),
          .error (.flush scratch cause)⟩
  /-- The scratch file was full, and could not be moved. -/
  | unswapped {created : FileSystem} {target : Inode} {before : List Text}
      {calls : List (Sighting Buffered)} {writer flushed : Buffered} {cause : Cause} :
      fs.create scratch = .ok (created, target) → linesOf created source = before.map .ok →
      Reached table observer (writerTo created target) before calls writer →
      writer.flush = (flushed, none) →
      (created.append target flushed.close.taken).rename scratch file = .error cause →
      Ended table observer fs source file scratch
        ⟨created.append target flushed.close.taken, calls.map (·.change),
          .error (.swap scratch file cause)⟩
  /-- The scratch file took the place of the file. -/
  | swapped {created swapped : FileSystem} {target : Inode} {before : List Text}
      {calls : List (Sighting Buffered)} {writer flushed : Buffered} :
      fs.create scratch = .ok (created, target) → linesOf created source = before.map .ok →
      Reached table observer (writerTo created target) before calls writer →
      writer.flush = (flushed, none) →
      (created.append target flushed.close.taken).rename scratch file = .ok swapped →
      Ended table observer fs source file scratch
        ⟨swapped, calls.map (·.change), .ok ⟨file, calls.map (·.change), true⟩⟩

/-- A replacement ends in one of the ways. -/
theorem ended_of_replaceThrough (table : Table) (observer : Observer) (fs : FileSystem)
    (source : Inode) (file scratch : Text) :
    Ended table observer fs source file scratch
      (replaceThrough table observer fs source file scratch) := by
  unfold replaceThrough
  cases hcreate : fs.create scratch with
  | error cause => exact .uncreated
  | ok result =>
    obtain ⟨created, target⟩ := result
    have hstopped : Stopped table observer (writerTo created target) (linesOf created source)
        (editAll table observer (.ofBytes (created.contents source)) (writerTo created target)) :=
      editAll_stopped _
    dsimp only
    generalize editAll table observer (.ofBytes (created.contents source))
      (writerTo created target) = run at hstopped
    cases houtcome : run.outcome with
    | error failure => exact .unedited hcreate hstopped (Run.failure_eq_some_iff.2 houtcome)
    | ok collected =>
      obtain rfl := hstopped.collected_eq houtcome
      obtain ⟨before, hreached, hlines⟩ :=
        hstopped.reached (Run.failure_eq_none_iff.2 ⟨_, houtcome⟩)
      cases hflush : run.writer.flush with
      | mk flushed refused =>
        cases refused with
        | some cause => exact .unflushed hcreate hlines hreached hflush
        | none =>
          cases hrename : (created.append target flushed.close.taken).rename scratch file with
          | error cause =>
            simpa [hrename, Stream.Run.changes] using
              Ended.unswapped hcreate hlines hreached hflush hrename
          | ok swapped =>
            simpa [hrename, Stream.Run.changes] using
              Ended.swapped hcreate hlines hreached hflush hrename

/-- Once the scratch file is created, a replacement tells the changes of its edit. -/
theorem told_replaceThrough (hcreate : fs.create scratch = .ok (created, target)) :
    (replaceThrough table observer fs source file scratch).told =
      (editAll table observer (.ofBytes (created.contents source))
        (writerTo created target)).changes := by
  unfold replaceThrough
  simp only [hcreate]
  split
  · rfl
  split
  · rfl
  split <;> rfl

/-- A replacement that succeeds has edited all lines. -/
theorem edited_of_replaceThrough_ok {result : Result}
    (hcreate : fs.create scratch = .ok (created, target))
    (hok : (replaceThrough table observer fs source file scratch).outcome = .ok result) :
    let run := editAll table observer (.ofBytes (created.contents source)) (writerTo created target)
    run.failure = none ∧ result = ⟨file, run.changes, true⟩ := by
  unfold replaceThrough at hok
  simp only [hcreate] at hok
  split at hok
  · cases hok
  next collected houtcome =>
  split at hok
  · cases hok
  split at hok
  · cases hok
  · cases hok
    refine ⟨Run.failure_eq_none_iff.2 ⟨collected, houtcome⟩, ?_⟩
    rw [collected_eq_changes houtcome]

/-- A dry run sees nothing of a tree but the content of the file. -/
theorem rehearse_congr (table : Table) (observer : Observer) (file : Text) {other : FileSystem}
    (h : other.contents source = fs.contents source) :
    (rehearse table observer other source file).told =
        (rehearse table observer fs source file).told ∧
      (rehearse table observer other source file).outcome =
        (rehearse table observer fs source file).outcome := by
  unfold rehearse
  rw [h]
  dsimp only
  split <;> exact ⟨rfl, rfl⟩

/-- A migration that finds a file edits it. -/
theorem migrate_eq (habsolute : fs.absolute path = .ok file) (hfile : fs.resolve file = .ok source)
    (hplain : fs.isDirectoryNode source = false) (hscratch : Path.sibling file = some scratch)
    (dryRun : Bool) :
    migrate table dryRun observer fs path =
      if dryRun then rehearse table observer fs source file
      else replaceThrough table observer fs source file scratch := by
  have hdirectory : fs.isDirectory file = false := by simp [isDirectory, hfile, hplain]
  simp [migrate, habsolute, hdirectory, openRead, hfile, hscratch]

/-- A migration fails before it reads a line, or it has found the file and edits it. It has found
the file too if it fails for want of a scratch path. -/
theorem migrate_cases (table : Table) (dryRun : Bool) (observer : Observer) (fs : FileSystem)
    (path : Text) :
    (∃ failure, migrate table dryRun observer fs path = .failed fs failure ∧
      ¬ failure.FollowsCreate ∧ ∀ file, failure = .nameless file →
        fs.absolute path = .ok file ∧ Path.sibling file = none ∧
          ∃ source, fs.resolve file = .ok source ∧ fs.isDirectoryNode source = false) ∨
    ∃ file source, fs.absolute path = .ok file ∧ fs.resolve file = .ok source ∧
      fs.isDirectoryNode source = false ∧
      (dryRun = true ∧
          migrate table dryRun observer fs path = rehearse table observer fs source file ∨
        dryRun = false ∧ ∃ scratch, Path.sibling file = some scratch ∧
          migrate table dryRun observer fs path =
            replaceThrough table observer fs source file scratch) := by
  unfold migrate
  cases habsolute : fs.absolute path with
  | error cause => exact Or.inl ⟨_, rfl, id, nofun⟩
  | ok file =>
    by_cases hdirectory : fs.isDirectory file = true
    · simp only [hdirectory, if_true]
      exact Or.inl ⟨_, rfl, id, nofun⟩
    · simp only [hdirectory, openRead]
      cases hfile : fs.resolve file with
      | error cause => exact Or.inl ⟨_, rfl, id, nofun⟩
      | ok source =>
        have hplain : fs.isDirectoryNode source = false := by
          simpa [isDirectory, hfile] using hdirectory
        cases dryRun with
        | true => exact Or.inr ⟨file, source, rfl, hfile, hplain, Or.inl ⟨rfl, rfl⟩⟩
        | false =>
          cases hscratch : Path.sibling file with
          | none =>
            refine Or.inl ⟨_, rfl, id, fun nameless heq ↦ ?_⟩
            cases heq
            exact ⟨rfl, hscratch, source, hfile, hplain⟩
          | some scratch =>
            exact Or.inr ⟨file, source, rfl, hfile, hplain, Or.inr ⟨rfl, scratch, hscratch, rfl⟩⟩

/-- A dry run leaves the tree as it is. -/
theorem fileSystem_migrate_dryRun (table : Table) (observer : Observer) (fs : FileSystem)
    (path : Text) : (migrate table true observer fs path).fileSystem = fs := by
  rcases migrate_cases table true observer fs path with ⟨_, hrun, -⟩ |
    ⟨file, source, -, -, -, ⟨-, hrun⟩ | ⟨hdry, -⟩⟩
  · rw [hrun]
    rfl
  · rw [hrun, fileSystem_rehearse]
  · cases hdry

/-- A migration that is no dry run fails early, or it replaces the file at a site of its own. -/
theorem ended_of_migrate (hfs : fs.WellFormed) (habsolute : fs.absolute path = .ok file)
    (hscratch : Path.sibling file = some scratch) :
    (∃ failure, migrate table false observer fs path = .failed fs failure ∧
      ¬ failure.FollowsCreate) ∨
    ∃ source directory name, fs.resolve file = .ok source ∧
      Site fs file scratch directory name source ∧
      Ended table observer fs source file scratch (migrate table false observer fs path) := by
  rcases migrate_cases table false observer fs path with ⟨failure, hrun, hearly, -⟩ |
    ⟨found, source, hfound, hfile, hplain, ⟨hdry, -⟩ | ⟨-, beside, hbeside, hrun⟩⟩
  · exact Or.inl ⟨failure, hrun, hearly⟩
  · cases hdry
  · obtain rfl : file = found := Except.ok.inj (habsolute.symm.trans hfound)
    obtain rfl : scratch = beside := Option.some.inj (hscratch.symm.trans hbeside)
    obtain ⟨sibling, directory, name, hsibling, hsite⟩ :=
      site_of_resolve hfs habsolute hfile hplain
    obtain rfl : scratch = sibling := Option.some.inj (hscratch.symm.trans hsibling)
    rw [hrun]
    exact Or.inr ⟨source, directory, name, hfile, hsite, ended_of_replaceThrough ..⟩

/-! ## Steps -/

/-- A replacement creates, writes and moves, as far as it comes. -/
theorem Ended.steps {run : Run} (h : Ended table observer fs source file scratch run) :
    Steps fs run.fileSystem := by
  have hwritten : ∀ {created : FileSystem} {target : Inode},
      fs.create scratch = .ok (created, target) → ∀ bytes, Steps fs (created.append target bytes) :=
    fun hcreate bytes ↦ .tail (.single (.create hcreate)) (.append ..)
  cases h with
  | uncreated => exact .refl
  | unedited hcreate => exact hwritten hcreate _
  | unflushed hcreate => exact hwritten hcreate _
  | unswapped hcreate => exact hwritten hcreate _
  | swapped hcreate _ _ _ hrename => exact .tail (hwritten hcreate _) (.rename hrename)

/-- Whatever becomes of a migration, its tree comes of the one before by steps. -/
theorem steps_migrate (table : Table) (dryRun : Bool) (observer : Observer) (fs : FileSystem)
    (path : Text) : Steps fs (migrate table dryRun observer fs path).fileSystem := by
  rcases migrate_cases table dryRun observer fs path with ⟨_, hrun, -⟩ |
    ⟨file, source, -, -, -, ⟨-, hrun⟩ | ⟨-, scratch, -, hrun⟩⟩
  · rw [hrun]
    exact .refl
  · rw [hrun, fileSystem_rehearse]
  · rw [hrun]
    exact (ended_of_replaceThrough ..).steps

/-- A path that resolves is one that the system looks at. -/
theorem checkPath_of_resolve (h : fs.resolve path = .ok source) : checkPath path = .ok () :=
  (resolve_eq_ok_iff_placeOf.1 h).1

/-! ## What cannot fail -/

/-- Once the scratch file was created, whatever was written to it, its move does not fail. -/
theorem rename_of_create {directory : Inode} {name : Name} (hfs : fs.WellFormed)
    (hsite : Site fs file scratch directory name source) (hfile : fs.resolve file = .ok source)
    (hcreate : fs.create scratch = .ok (created, target)) (bytes : Bytes) :
    ∃ swapped, (created.append target bytes).rename scratch file = .ok swapped := by
  obtain ⟨hscratch, hcreated⟩ := created_of_create hcreate
  obtain ⟨_, _, -, -, -, hmoves⟩ :=
    rename_scratch hfs hsite (checkPath_of_resolve hfile) hscratch hcreated bytes
  exact ⟨_, hmoves⟩

/-- An empty node has no lines. -/
theorem linesOf_eq_nil (h : fs.contents source = []) : linesOf fs source = [] := by
  simp [linesOf, h, Reader.ofBytes, Reader.lines, Reader.gather, splitLines, Reader.joinLines,
    Reader.ending]

/-- Nothing has to be passed on of an empty buffer, so that cannot fail. -/
theorem flush_writerTo (fs : FileSystem) (target : Inode) :
    (writerTo fs target).flush.2 = none := by
  show ((writerTo fs target).target.write []).2 = none
  rw [Limited.write_eq_none_iff]
  unfold Limited.share
  split <;> simp

/-- The bytes that lines are edited to, one after another. -/
def editedBytes (table : Table) (lines : List Text) : Bytes := Text.utf8 (editedLines table lines)

/-- What a run has passed on after the lines `before`, and what is pending, are those lines as they
are edited. -/
theorem received_of_reached {before : List Text} {calls : List (Sighting Buffered)}
    {writer : Buffered} (h : Reached table observer (writerTo fs target) before calls writer) :
    writer.received = editedBytes table before := by
  simpa [writerTo, editedBytes] using h.received Buffered.accounts

/-- What no write changes about the target of the buffer, a run leaves as it is. -/
theorem target_of_reached {holds : Limited → Prop} {before : List Text}
    {calls : List (Sighting Buffered)} {start writer : Buffered}
    (hstep : ∀ target bytes, holds target → holds (target.write bytes).1)
    (h : Reached table observer start before calls writer) (hstart : holds start.target) :
    holds writer.target :=
  h.holds (fun writer ↦ holds writer.target)
    (fun _ bytes hwriter ↦ Buffered.target_write hstep hwriter bytes) hstart

/-- A replacement that fails has left the tree alone, or it has written to another node than that
of the file. Where that node takes everything, the failure lies in a line, and the node has
received the lines before it. -/
theorem Ended.of_error {run : Run} {failure : Failure} {directory : Inode} {name : Name}
    (hfs : fs.WellFormed) (hsite : Site fs file scratch directory name source)
    (hfile : fs.resolve file = .ok source) (h : Ended table observer fs source file scratch run)
    (herror : run.outcome = .error failure) :
    run.fileSystem = fs ∧ ¬ failure.FollowsCreate ∨
    ∃ created target bytes, fs.create scratch = .ok (created, target) ∧ source ≠ target ∧
      run.fileSystem = created.append target bytes ∧
      ((created.node? target).bind Node.room = none →
        ∃ before failing rest reason, failure = .edit file reason ∧
          linesOf created source = before.map .ok ++ failing :: rest ∧
          AdmitsAll table observer before ∧ FailsAt table observer before failing reason ∧
          bytes = editedBytes table before) := by
  have hempty : ∀ {created target}, fs.create scratch = .ok (created, target) →
      source = target → linesOf created source = [] := by
    intro created target hcreate heq
    rw [heq]
    exact linesOf_eq_nil (created_of_create hcreate).2.contents_target
  have hroom : ∀ {created target}, (created.node? target).bind Node.room = none →
      (writerTo created target).target.room = none := by
    intro created target hnone
    simp only [writerTo, hnone]
    rfl
  cases h with
  | uncreated =>
    cases herror
    exact Or.inl ⟨rfl, id⟩
  | @unedited created target run reason hcreate hstopped hfailure =>
    cases herror
    refine Or.inr ⟨created, target, _, hcreate, ?_, rfl, ?_⟩
    · intro heq
      -- Without lines there is nothing to stop at.
      rw [hempty hcreate heq] at hstopped
      rw [hstopped.failure_eq_none] at hfailure
      cases hfailure
    · intro hnone
      obtain ⟨before, calls, failing, rest, hreached, hlines, hfails⟩ :=
        hstopped.failsAt Buffered.neverFails (hroom hnone) hfailure
      have hwriter : run.writer.target.room = none :=
        target_of_reached Limited.neverFails.step hreached (hroom hnone)
      refine ⟨before, failing, rest, reason, rfl, hlines, hreached.admitsAll, hfails, ?_⟩
      rw [Buffered.taken_close_of_room_eq_none hwriter, received_of_reached hreached]
  | @unflushed created target before calls writer stopped cause hcreate hlines hreached hflush =>
    cases herror
    refine Or.inr ⟨created, target, _, hcreate, ?_, rfl, ?_⟩
    · intro heq
      rw [hempty hcreate heq] at hlines
      obtain rfl : before = [] := List.map_eq_nil_iff.1 hlines.symm
      obtain rfl := hreached.eq_start
      have hnever := flush_writerTo created target
      rw [hflush] at hnever
      cases hnever
    · intro hnone
      have hwriter : writer.target.room = none :=
        target_of_reached Limited.neverFails.step hreached (hroom hnone)
      obtain ⟨next, hnext, -⟩ := Buffered.flush_of_room_eq_none hwriter
      rw [hflush] at hnext
      cases hnext
  | @unswapped created target before calls writer flushed cause hcreate _ _ _ hrename =>
    obtain ⟨swapped, hswapped⟩ := rename_of_create hfs hsite hfile hcreate flushed.close.taken
    rw [hrename] at hswapped
    cases hswapped
  | swapped => cases herror

/-- What a replacement that succeeded has done: it has passed the lines `before`, which are all,
filled the scratch file with them, within the limit that there may be, and moved it over the
file. -/
structure Swapped (table : Table) (fs : FileSystem) (source : Inode) (file scratch : Text)
    (directory : Inode) (name : Name) (run : Run) (result : Result)
    (created written : FileSystem) (target : Inode) (before : List Text) : Prop where
  create : fs.create scratch = .ok (created, target)
  lines : linesOf created source = before.map .ok
  report : result = ⟨file, changesFrom table 0 before, true⟩
  within : ∀ limit, (created.node? target).bind Node.room = some limit →
    (editedBytes table before).length ≤ limit
  filled : written = created.append target (editedBytes table before)
  moves : ∃ moved victim,
    written.lookup directory (name ++ Path.scratchEnding) = some moved ∧
      written.isDirectoryNode moved = false ∧ written.lookup directory name = some victim ∧
      run.fileSystem = if moved = victim then written else
        written.relocate (directory, name ++ Path.scratchEnding) (directory, name) moved

theorem Ended.of_ok {run : Run} {result : Result} {directory : Inode} {name : Name}
    (hfs : fs.WellFormed) (hsite : Site fs file scratch directory name source)
    (hfile : fs.resolve file = .ok source) (h : Ended table observer fs source file scratch run)
    (hok : run.outcome = .ok result) :
    ∃ created written target before, Swapped table fs source file scratch directory name run result
      created written target before := by
  cases h with
  | uncreated => cases hok
  | unedited => cases hok
  | unflushed => cases hok
  | unswapped => cases hok
  | @swapped created swapped target before calls writer flushed hcreate hlines hreached hflush
      hrename =>
    cases hok
    obtain ⟨hscratch, hcreated⟩ := created_of_create hcreate
    have htaken : flushed.close.taken = editedBytes table before := by
      rw [Buffered.taken_close_of_flush hflush, received_of_reached hreached]
    rw [htaken] at hrename
    obtain ⟨moved, victim, hmoved, hplain, hvictim, hmoves⟩ :=
      rename_scratch hfs hsite (checkPath_of_resolve hfile) hscratch hcreated
        (editedBytes table before)
    rw [hrename, Except.ok.injEq] at hmoves
    refine ⟨created, _, target, before, hcreate, hlines, by rw [hreached.changes], ?_, rfl, moved,
      victim, hmoved, hplain, hvictim, hmoves⟩
    intro limit hlimit
    -- Neither the run nor the flush after it brings the node over its limit.
    have hstart : (writerTo created target).target.Within limit := by
      simp only [writerTo, hlimit]
      exact Limited.within_fresh limit _
    have hwithin : writer.target.Within limit :=
      target_of_reached (fun _ bytes h ↦ h.write bytes) hreached hstart
    have hflushed : flushed.target.Within limit := by
      have hwrite := hwithin.write writer.pending
      have htarget : flushed.target = (writer.target.write writer.pending).1 := by
        have hfirst := congrArg (fun result ↦ result.1.target) hflush
        exact hfirst.symm
      rwa [htarget]
    have hspec := (Buffered.flush_spec hflush).2
    rw [received_of_reached hreached] at hspec
    rw [← hspec]
    exact hflushed.length_le

/-- A migration that succeeds was one of a file, which it replaced. -/
theorem swapped_of_ok {result : Result} (hfs : fs.WellFormed)
    (hok : (migrate table false observer fs path).outcome = .ok result) :
    ∃ file scratch source directory name created written target before,
      fs.absolute path = .ok file ∧ Path.sibling file = some scratch ∧
        fs.resolve file = .ok source ∧ Site fs file scratch directory name source ∧
        Swapped table fs source file scratch directory name (migrate table false observer fs path)
          result created written target before := by
  rcases migrate_cases table false observer fs path with ⟨_, hrun, -⟩ |
    ⟨file, source, habsolute, hfile, -, ⟨hdry, -⟩ | ⟨-, scratch, hscratch, -⟩⟩
  · rw [hrun] at hok
    cases hok
  · cases hdry
  rcases ended_of_migrate hfs habsolute hscratch with ⟨_, hrun, -⟩ |
    ⟨found, directory, name, hfound, hsite, hended⟩
  · rw [hrun] at hok
    cases hok
  obtain rfl : source = found := Except.ok.inj (hfile.symm.trans hfound)
  obtain ⟨created, written, target, before, hswapped⟩ := hended.of_ok hfs hsite hfile hok
  exact ⟨file, scratch, source, directory, name, created, written, target, before, habsolute,
    hscratch, hfile, hsite, hswapped⟩

end LineMigration.Migration
