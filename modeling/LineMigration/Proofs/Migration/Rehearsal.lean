import LineMigration.Proofs.Stream.Agreement
import LineMigration.Proofs.Migration.Course

/-!
# Rehearsing a migration

A dry run edits the lines that a migration edits, into nothing. It changes nothing, and it tells
how far the migration can come: what succeeds has the result of the dry run but for the word that
the file was replaced, what the dry run fails at is not passed, and no change is told that the dry
run does not tell (`rehearsal_predicts`). The one condition is that the scratch path does not lead
to the file itself, as creating would then empty it before it is read.
-/

namespace LineMigration

namespace FileSystem

variable {fs created : FileSystem} {source target : Inode} {scratch file : Text}

/-- What is created is another node than the file, unless the path led to the file. -/
theorem Created.source_ne (hfs : fs.WellFormed) (h : Created fs scratch created target)
    (hfile : fs.resolve file = .ok source) (hother : fs.resolve scratch ≠ .ok source) :
    source ≠ target := by
  rintro rfl
  cases h with
  | emptied hresolve => exact hother hresolve
  | new => exact absurd (lt_of_resolve hfs hfile) (Nat.lt_irrefl _)

end FileSystem

namespace Migration

open LineMigration.Stream LineMigration.FileSystem

variable {table : Table} {observer : Observer} {fs : FileSystem} {source : Inode}
  {file scratch path : Text}

/-- What a migration tells, and how it ends, against the dry run. -/
structure Predicts (rehearsal run : Run) : Prop where
  told : run.told <+: rehearsal.told
  ok : ∀ result, run.outcome = .ok result →
    rehearsal.outcome = .ok { result with applied := false } ∧ rehearsal.told = run.told

/-- Before any line is read, all runs fail alike. -/
theorem predicts_failed (failure : Failure) :
    Predicts (.failed fs failure) (.failed fs failure) :=
  ⟨List.prefix_rfl, fun _ hok ↦ by cases hok⟩

/-- A dry run tells the changes of its edit, however that ends. -/
theorem told_rehearse (table : Table) (observer : Observer) (fs : FileSystem) (source : Inode)
    (file : Text) :
    (rehearse table observer fs source file).told =
      (editAll table observer (.ofBytes (fs.contents source)) Discard.discard).changes := by
  unfold rehearse
  dsimp only
  split <;> rfl

/-- The edit into nothing predicts the edit through a scratch file that is not the file. -/
theorem predicts_replaceThrough (hfs : fs.WellFormed) (hfile : fs.resolve file = .ok source)
    (hplain : fs.isDirectoryNode source = false) (hother : fs.resolve scratch ≠ .ok source) :
    Predicts (rehearse table observer fs source file)
      (replaceThrough table observer fs source file scratch) := by
  cases hcreate : fs.create scratch with
  | error cause =>
    unfold replaceThrough
    rw [hcreate]
    exact ⟨List.nil_prefix, fun _ hok ↦ by cases hok⟩
  | ok result =>
    obtain ⟨created, target⟩ := result
    have hcreated := (created_of_create hcreate).2
    have hcontents : created.contents source = fs.contents source :=
      hcreated.touchesOnly.contents_eq (hcreated.source_ne hfs hfile hother) hplain
    have hfollows : Follows
        (editAll table observer (.ofBytes (fs.contents source)) Discard.discard)
        (editAll table observer (.ofBytes (created.contents source))
          (writerTo created target)) := by
      rw [hcontents]
      exact editAll_follows Discard.neverFails trivial _
    refine ⟨?_, fun result hok ↦ ?_⟩
    · rw [told_replaceThrough hcreate, told_rehearse]
      exact hfollows.isPrefix
    · obtain ⟨hfailure, rfl⟩ := edited_of_replaceThrough_ok hcreate hok
      obtain ⟨hwhole, hchanges⟩ := hfollows.of_failure_eq_none hfailure
      rw [told_replaceThrough hcreate, told_rehearse]
      refine ⟨?_, hchanges.symm⟩
      simp only [rehearse, (editAll_stopped _).outcome_eq_ok hwhole, hchanges]

/-- Where the scratch path does not lead to the file that is read, a dry run changes nothing. If
the migration succeeds, so does the dry run, with the same file and the same changes, all of them
told; if the dry run fails, the migration does too; and what the migration tells is the beginning
of what the dry run tells. -/
theorem rehearsal_predicts (hfs : fs.WellFormed)
    (hother : ∀ file scratch source, fs.absolute path = .ok file →
      Path.sibling file = some scratch → fs.resolve file = .ok source →
      fs.resolve scratch ≠ .ok source) :
    let rehearsal := migrate table true observer fs path
    let run := migrate table false observer fs path
    rehearsal.fileSystem = fs ∧
      (∀ result, run.outcome = .ok result →
        rehearsal.outcome = .ok { result with applied := false } ∧ rehearsal.told = run.told) ∧
      (∀ failure, rehearsal.outcome = .error failure →
        ∃ reason, run.outcome = .error reason) ∧
      run.told <+: rehearsal.told := by
  intro rehearsal run
  have hpredicts : rehearsal.fileSystem = fs ∧ Predicts rehearsal run := by
    unfold rehearsal run migrate
    cases habsolute : fs.absolute path with
    | error cause => exact ⟨rfl, predicts_failed _⟩
    | ok file =>
      by_cases hdirectory : fs.isDirectory file = true
      · simp only [hdirectory, if_true]
        exact ⟨rfl, predicts_failed _⟩
      · simp only [hdirectory, openRead]
        cases hfile : fs.resolve file with
        | error cause => exact ⟨rfl, predicts_failed _⟩
        | ok source =>
          have hplain : fs.isDirectoryNode source = false := by
            simpa [isDirectory, hfile] using hdirectory
          cases hscratch : Path.sibling file with
          | none =>
            exact ⟨fileSystem_rehearse .., List.nil_prefix, fun _ hok ↦ by cases hok⟩
          | some scratch =>
            exact ⟨fileSystem_rehearse .., predicts_replaceThrough hfs hfile hplain
              (hother file scratch source habsolute hscratch hfile)⟩
  obtain ⟨hkept, htold, hok⟩ := hpredicts
  refine ⟨hkept, hok, fun failure hfails ↦ ?_, htold⟩
  cases houtcome : run.outcome with
  | error reason => exact ⟨reason, rfl⟩
  | ok result =>
    rw [(hok result houtcome).1] at hfails
    cases hfails

/-- A file of two lines with the names `f` and `g`. The scratch path of `f` is a link to a device
for two bytes: the dry run tells of both lines and succeeds, whereas the migration tells of both
and fails, as the second one cannot be passed on. At the scratch path of `g` there is nothing, and
the migration succeeds as the dry run says. -/
theorem rehearsal_predicts_full_device :
    let fs : FileSystem :=
      ⟨[.directory [(['f'], 1), (['f', '-', 'n', 'e', 'w'], 2), (['d'], 3), (['g'], 1)] root,
        .file [97, 10, 97, 10], .link ['d'], .device (some 2) []], root⟩
    let changes : List Change := [⟨0, ['a'], ['b']⟩, ⟨1, ['a'], ['b']⟩]
    let rehearsal (path : Text) := migrate [⟨['a'], ['b']⟩] true .silent fs path
    let run (path : Text) := migrate [⟨['a'], ['b']⟩] false .silent fs path
    fs.WellFormed ∧ fs.resolve ['/', 'f', '-', 'n', 'e', 'w'] ≠ .ok 1 ∧
      (rehearsal ['f']).outcome = .ok ⟨['/', 'f'], changes, false⟩ ∧
      (run ['f']).outcome = .error (.flush ['/', 'f', '-', 'n', 'e', 'w'] (.system .noSpace)) ∧
      (rehearsal ['f']).fileSystem = fs ∧ (run ['f']).told <+: (rehearsal ['f']).told ∧
      (run ['g']).outcome = .ok ⟨['/', 'g'], changes, true⟩ ∧
      (rehearsal ['g']).outcome = .ok ⟨['/', 'g'], changes, false⟩ ∧
      (rehearsal ['g']).told = (run ['g']).told := by
  intro fs changes rehearsal run
  have hfs : fs.WellFormed := by decide
  have hlink : fs.resolve ['/', 'f', '-', 'n', 'e', 'w'] = .ok 3 := rfl
  have hnothing : fs.resolve ['/', 'g', '-', 'n', 'e', 'w'] = .error (.system .noEntry) := rfl
  have hother : ∀ file scratch source, fs.absolute ['f'] = .ok file →
      Path.sibling file = some scratch → fs.resolve file = .ok source →
      fs.resolve scratch ≠ .ok source := by
    intro file scratch source habsolute hsibling hfile heq
    obtain rfl : ['/', 'f'] = file := Except.ok.inj habsolute
    obtain rfl : ['/', 'f', '-', 'n', 'e', 'w'] = scratch := Option.some.inj hsibling
    obtain rfl : 1 = source := Except.ok.inj hfile
    cases hlink.symm.trans heq
  have hfree : ∀ file scratch source, fs.absolute ['g'] = .ok file →
      Path.sibling file = some scratch → fs.resolve file = .ok source →
      fs.resolve scratch ≠ .ok source := by
    intro file scratch source habsolute hsibling _ heq
    obtain rfl : ['/', 'g'] = file := Except.ok.inj habsolute
    obtain rfl : ['/', 'g', '-', 'n', 'e', 'w'] = scratch := Option.some.inj hsibling
    cases hnothing.symm.trans heq
  have hok : (run ['g']).outcome = .ok ⟨['/', 'g'], changes, true⟩ := rfl
  obtain ⟨hkept, -, -, htold⟩ :=
    @rehearsal_predicts [⟨['a'], ['b']⟩] .silent fs ['f'] hfs hother
  obtain ⟨-, hsucceeds, -, -⟩ :=
    @rehearsal_predicts [⟨['a'], ['b']⟩] .silent fs ['g'] hfs hfree
  obtain ⟨hforetold, hsame⟩ := hsucceeds _ hok
  refine ⟨hfs, ?_, rfl, rfl, hkept, htold, hok, hforetold, hsame⟩
  rw [hlink]
  exact fun heq ↦ by cases heq

end Migration

end LineMigration
