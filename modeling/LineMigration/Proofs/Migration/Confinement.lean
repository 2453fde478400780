import LineMigration.Proofs.Migration.Course

/-!
# What a migration cannot change

Whatever links there are, a migration changes nothing, or it stays within the places that
`MayChange` lists and the one node that its scratch path led to (`migrate_confined`): the name of
the file, the name of the scratch file and, if that was a link to nothing, the name at the end of
the link. Links are followed when the scratch file is created and not when it is moved; where two of
these names stood for one node, nothing more changes than where they did not.
-/

namespace LineMigration.Migration

open LineMigration.FileSystem

variable {fs created written after : FileSystem} {directory moved source target : Inode}
  {name : Name} {file scratch path : Text} {table : Table} {observer : Observer} {run : Run}

/-- The entries that a migration may add, remove or let stand for another node. -/
inductive MayChange (fs : FileSystem) (file scratch : Text) : Inode → Name → Prop where
  | file {directory : Inode} {name : Name} :
      fs.nameOf? file = some (directory, name) → MayChange fs file scratch directory name
  | scratch {directory : Inode} {name : Name} :
      fs.nameOf? scratch = some (directory, name) → MayChange fs file scratch directory name
  /-- The scratch path names a link that leads to this entry, which stands for nothing. -/
  | dangling {linkDirectory directory : Inode} {linkName name : Name} {text : Text} :
      fs.nameOf? scratch = some (linkDirectory, linkName) →
      fs.linkAt? linkDirectory linkName = some text →
      fs.placeOf .follow scratch = .ok (.entry directory name false) →
      fs.lookup directory name = none → MayChange fs file scratch directory name

/-- The tree `after` differs from `fs` in nothing but the entries that may change and the node that
the scratch path led to, if it led to one. -/
structure Confined (fs : FileSystem) (file scratch : Text) (after : FileSystem) : Prop where
  workingDirectory : after.workingDirectory = fs.workingDirectory
  parent : ∀ inode, after.parent? inode = fs.parent? inode
  node : ∀ inode < fs.nodes.length, fs.isDirectoryNode inode = false →
    fs.resolve scratch ≠ .ok inode → after.node? inode = fs.node? inode
  entry : ∀ directory name, after.lookup directory name ≠ fs.lookup directory name →
    MayChange fs file scratch directory name

/-- Creating the scratch file and writing to it is confined: what is created is the node that the
path led to, or has the last name that it led to. -/
theorem confined_of_created (hfs : fs.WellFormed) (hcreated : Created fs scratch created target)
    (hname : fs.nameOf? scratch = some (directory, name)) (file : Text) (bytes : Bytes) :
    Confined fs file scratch (created.append target bytes) := by
  have hwrites := hcreated.writesTo hfs bytes
  refine ⟨hwrites.touches.workingDirectory, hwrites.touches.parent, ?_, ?_⟩
  · intro inode hlt hplain hother
    refine hwrites.touches.node?_eq ?_ hplain
    rintro rfl
    cases hcreated with
    | emptied hresolve => exact hother hresolve
    | new => exact Nat.lt_irrefl _ hlt
  · intro asked askedName hchanged
    have hsame := sameOutline_append created target bytes
    rw [hsame.lookup_eq] at hchanged
    cases hcreated with
    | emptied => exact absurd ((sameOutline_truncate fs target).lookup_eq asked askedName) hchanged
    | @new last lastName hplace hlast _ hnone =>
      rw [lookup_withFile hlast] at hchanged
      split at hchanged
      · next hnew =>
        obtain ⟨rfl, rfl⟩ := hnew
        cases hlink : fs.linkAt? directory name with
        | some text => exact .dangling hname hlink hplace hnone
        | none =>
          rw [placeOf_of_nameOf? hfs hname hlink, Except.ok.injEq, Place.entry.injEq] at hplace
          obtain ⟨rfl, rfl, -⟩ := hplace
          exact .scratch hname
      · exact absurd rfl hchanged

/-- So is the move from the name of the scratch file to that of the file. -/
theorem Confined.relocate {fileDirectory : Inode} {fileName : Name}
    (h : Confined fs file scratch written) (hscratch : fs.nameOf? scratch = some (directory, name))
    (hfile : fs.nameOf? file = some (fileDirectory, fileName))
    (hplain : written.isDirectoryNode moved = false)
    (hdirectory : written.isDirectoryNode directory = true)
    (hfileDirectory : written.isDirectoryNode fileDirectory = true) :
    Confined fs file scratch
      (written.relocate (directory, name) (fileDirectory, fileName) moved) := by
  have hfaces : Same Node.face written
      (written.relocate (directory, name) (fileDirectory, fileName) moved) :=
    sameFaces_relocate hplain
  refine ⟨hfaces.workingDirectory.trans h.workingDirectory,
    fun inode ↦ (hfaces.parent?_eq inode).trans (h.parent inode), ?_, ?_⟩
  · intro inode hlt hinode hother
    have hkept := h.node inode hlt hinode hother
    refine (node?_eq_of_face (hfaces.view inode) ?_).trans hkept
    rw [isDirectoryNode, hkept]
    exact hinode
  · intro asked askedName hchanged
    rw [lookup_relocate hplain hdirectory hfileDirectory] at hchanged
    split at hchanged
    · next hhere =>
      obtain ⟨rfl, rfl⟩ := hhere
      exact .scratch hscratch
    split at hchanged
    · next hhere =>
      obtain ⟨rfl, rfl⟩ := hhere
      exact .file hfile
    · exact h.entry asked askedName hchanged

/-- However the replacement of a file ends, it has changed nothing and failed before there was a
scratch file, or it is confined and did not. -/
theorem Ended.confined (hfs : fs.WellFormed) (hsite : Site fs file scratch directory name source)
    (hfile : fs.resolve file = .ok source) (h : Ended table observer fs source file scratch run) :
    run.fileSystem = fs ∨ (∀ failure, run.outcome = .error failure → failure.FollowsCreate) ∧
      (∃ result, fs.create scratch = .ok result) ∧ Confined fs file scratch run.fileSystem := by
  have hwritten : ∀ {created target}, fs.create scratch = .ok (created, target) → ∀ bytes,
      Confined fs file scratch (created.append target bytes) := fun hcreate bytes ↦
    confined_of_created hfs (created_of_create hcreate).2 hsite.scratchName file bytes
  cases h with
  | uncreated => exact .inl rfl
  | unedited hcreate =>
    refine .inr ⟨fun _ herror ↦ ?_, ⟨_, hcreate⟩, hwritten hcreate _⟩
    cases herror
    trivial
  | unflushed hcreate =>
    refine .inr ⟨fun _ herror ↦ ?_, ⟨_, hcreate⟩, hwritten hcreate _⟩
    cases herror
    trivial
  | unswapped hcreate =>
    refine .inr ⟨fun _ herror ↦ ?_, ⟨_, hcreate⟩, hwritten hcreate _⟩
    cases herror
    trivial
  | @swapped created swapped target before calls writer flushed hcreate _ _ _ hrename =>
    refine .inr ⟨fun _ herror ↦ (by cases herror), ⟨_, hcreate⟩, ?_⟩
    obtain ⟨hscratch, hcreated⟩ := created_of_create hcreate
    obtain ⟨moved, victim, hmoved, hplain, hvictim, hmoves⟩ :=
      rename_scratch hfs hsite (checkPath_of_resolve hfile) hscratch hcreated flushed.close.taken
    rw [hrename, Except.ok.injEq] at hmoves
    subst hmoves
    dsimp only
    split
    · exact hwritten hcreate _
    · exact (hwritten hcreate _).relocate hsite.scratchName hsite.fileName hplain
        (isDirectoryNode_of_lookup hmoved) (isDirectoryNode_of_lookup hvictim)

/-- A migration changes nothing; or it is no dry run, it has created its scratch file before any
failure, and then no node that was there changes but the one that the scratch path led to, and no
entry but those that may: the one that the path names, the one that the scratch path names, and the
one that it led to over links if it named a link to nothing. -/
theorem migrate_confined (hfs : fs.WellFormed) (table : Table) (dryRun : Bool)
    (observer : Observer) (path : Text) :
    let run := migrate table dryRun observer fs path
    run.fileSystem = fs ∨
      dryRun = false ∧ (∀ failure, run.outcome = .error failure → failure.FollowsCreate) ∧
        ∃ file scratch, fs.absolute path = .ok file ∧ Path.sibling file = some scratch ∧
          (∃ result, fs.create scratch = .ok result) ∧
          (∀ entry, fs.nameOf? path = some entry → fs.nameOf? file = some entry) ∧
          Confined fs file scratch run.fileSystem := by
  intro run
  rcases migrate_cases table dryRun observer fs path with ⟨_, hrun, -⟩ |
    ⟨file, source, habsolute, hfile, hplain, ⟨-, hrun⟩ | ⟨hdry, scratch, hscratch, hrun⟩⟩
  · exact .inl (congrArg Run.fileSystem hrun)
  · exact .inl ((congrArg Run.fileSystem hrun).trans (fileSystem_rehearse ..))
  obtain ⟨sibling, directory, name, hsibling, hsite⟩ :=
    site_of_resolve hfs habsolute hfile hplain
  cases hscratch.symm.trans hsibling
  obtain ⟨upper, hform⟩ := isAbsoluteForm_of_absolute hfs habsolute
  have hended : Ended table observer fs source file scratch run := by
    show Ended table observer fs source file scratch (migrate table dryRun observer fs path)
    rw [hrun]
    exact ended_of_replaceThrough ..
  rcases hended.confined hfs hsite hfile with hkept | ⟨hfollows, hcreate, hconfined⟩
  · exact .inl hkept
  · exact .inr ⟨hdry, hfollows, file, scratch, habsolute, hscratch, hcreate,
      fun _ hname ↦ hform.nameOf?_eq hfs hfile hplain hname, hconfined⟩

/-- A link to nothing at the scratch path, and a second name of the file at the end of another: the
file at the end of the first link is made, and the link takes the place of the file. -/
theorem migrate_confined_dangling :
    let fs : FileSystem :=
      ⟨[.directory [(['f'], 1), (['f', '-', 'n', 'e', 'w'], 2), (['g'], 1)] root, .file [97],
        .link ['h']], root⟩
    let after := (migrate [⟨['a'], ['b']⟩] false .silent fs ['f']).fileSystem
    fs.WellFormed ∧ after.lookup root ['f'] = some 2 ∧ after.lookup root ['h'] = some 3 ∧
      after.node? 1 = fs.node? 1 ∧
      MayChange fs ['/', 'f'] ['/', 'f', '-', 'n', 'e', 'w'] root ['h'] := by
  intro fs after
  have hfs : fs.WellFormed := by decide
  have hlookup : after.lookup root ['f'] = some 2 ∧ after.lookup root ['h'] = some 3 := by
    decide +kernel
  rcases migrate_confined hfs [⟨['a'], ['b']⟩] false .silent ['f'] with hkept |
    ⟨-, -, file, scratch, habsolute, hscratch, -, -, hconfined⟩
  · have hbad : after = fs := hkept
    rw [hbad] at hlookup
    cases hlookup.2
  · obtain rfl : ['/', 'f'] = file := Except.ok.inj habsolute
    obtain rfl : ['/', 'f', '-', 'n', 'e', 'w'] = scratch := Option.some.inj hscratch
    have hnode : after.node? 1 = fs.node? 1 := hconfined.node 1 (by decide) rfl (by decide)
    refine ⟨hfs, hlookup.1, hlookup.2, hnode, hconfined.entry root ['h'] ?_⟩
    rw [show (migrate [⟨['a'], ['b']⟩] false .silent fs ['f']).fileSystem.lookup root ['h'] =
      some 3 from hlookup.2]
    decide

end LineMigration.Migration
