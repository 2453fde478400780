import LineMigration.Proofs.FileSystem.Climb
import LineMigration.Proofs.Migration.Success

/-!
# What a failed migration leaves behind

A migration that fails may leave a scratch file with any part of its lines. `Leftover path fs other`
says that `other` is `fs` but for such a file. Creating the scratch file again empties it and gives
the tree that creating gave before (`create_append_of_create`), so the next migration runs as if the
other had not been (`Leftover.run_eq`).

`Ready fs path bytes` is what migrations of one path keep: the path is a regular file with these
bytes, and beside it is nothing, or a file without another name.
-/

namespace LineMigration.Migration

open LineMigration.Stream LineMigration.FileSystem

variable {table : Table} {dryRun : Bool} {observer : Observer} {fs other created : FileSystem}
  {directory source target : Inode} {name : Name} {file scratch path : Text} {bytes more : Bytes}
  {upper : List Name}

/-! ## Ready for a migration -/

/-- The path is a regular file with these bytes, and nothing but a file of its own can stand at the
path of its scratch file. -/
structure Ready (fs : FileSystem) (path : Text) (bytes : Bytes) : Prop where
  wellFormed : fs.WellFormed
  file : fs.IsFileAt path bytes
  scratch : ∀ file scratch, fs.absolute path = .ok file → Path.sibling file = some scratch →
    fs.entryAt? scratch = none ∨ fs.IsLoneFile scratch

/-- The name that a path of a regular file ends in stands for this file. -/
theorem exists_name_of_isFileAt (hfs : fs.WellFormed) (hfile : fs.IsFileAt path bytes) :
    ∃ directory name inode, fs.nameOf? path = some (directory, name) ∧
      fs.lookup directory name = some inode ∧ fs.node? inode = some (.file bytes) ∧
      fs.resolve path = .ok inode := by
  obtain ⟨inode, hentry, hnode⟩ := hfile.entry
  obtain ⟨⟨directory, name⟩, hname, hlookup⟩ := Option.bind_eq_some_iff.1 hentry
  obtain ⟨found, hfound, hfoundNode⟩ := node?_of_read? hfile.read
  obtain ⟨hslash, -⟩ := nameOf?_of_resolve hfs hfound (isDirectoryNode_eq_false hfoundNode rfl)
  exact ⟨directory, name, inode, hname, hlookup, hnode,
    resolve_of_nameOf? hfs (checkPath_of_resolve hfound) hname hslash hlookup (by simp [hnode])⟩

namespace Ready

variable (h : Ready fs path bytes) (habsolute : fs.absolute path = .ok file)
  (hfile : fs.resolve file = .ok source)
include h habsolute hfile

/-- The path and its absolute form end in one name, which stands for the file. -/
theorem name_of_site (hsite : Site fs file scratch directory name source) :
    fs.nameOf? path = some (directory, name) ∧ fs.lookup directory name = some source ∧
      fs.node? source = some (.file bytes) ∧ fs.resolve path = .ok source := by
  obtain ⟨upper, hform⟩ := isAbsoluteForm_of_absolute h.wellFormed habsolute
  obtain ⟨found, last, inode, hname, hlookup, hnode, hresolve⟩ :=
    exists_name_of_isFileAt h.wellFormed h.file
  obtain rfl : inode = source := hform.resolve_unique h.wellFormed hresolve hfile
  have hfileName := hform.nameOf?_eq h.wellFormed hfile hsite.plain hname
  rw [hsite.fileName] at hfileName
  cases hfileName
  exact ⟨hname, hlookup, hnode, hresolve⟩

variable (hscratch : Path.sibling file = some scratch)
include hscratch

/-- The scratch path does not name the file. -/
theorem entryAt?_scratch_ne (hsite : Site fs file scratch directory name source) :
    fs.entryAt? scratch ≠ some source := by
  obtain ⟨-, hlookup, -⟩ := h.name_of_site habsolute hfile hsite
  intro hentry
  rcases h.scratch file scratch habsolute hscratch with hnone | hlone
  · rw [hnone] at hentry
    cases hentry
  · -- The file would have two names, its own and that of the scratch file.
    obtain ⟨inode, _, hsole⟩ := hlone.soleFile hsite.scratchName
    have hbeside : fs.lookup directory (name ++ Path.scratchEnding) = some source := by
      simpa [entryAt?, hsite.scratchName] using hentry
    obtain rfl : inode = source := Option.some.inj (hsole.lookup.symm.trans hbeside)
    have hbad := (hsole.only directory name hlookup).2
    simp [Path.scratchEnding] at hbad

/-- The scratch file is created as an empty file of its own, beside the file and not the file
itself. Whatever is then written to it, the path keeps its absolute form. -/
theorem exists_site_of_create (hplain : fs.isDirectoryNode source = false)
    (hcreate : fs.create scratch = .ok (created, target)) (more : Bytes) :
    ∃ directory name, Site fs file scratch directory name source ∧ source ≠ target ∧
      SoleFile created directory (name ++ Path.scratchEnding) target [] ∧
      WritesTo target fs (created.append target more) ∧
      (created.append target more).absolute path = .ok file := by
  have hfs := h.wellFormed
  obtain ⟨_, directory, name, hsibling, hsite⟩ := site_of_resolve hfs habsolute hfile hplain
  cases hscratch.symm.trans hsibling
  obtain ⟨hcheck, hcreated⟩ := created_of_create hcreate
  have hsole := hcreated.soleFile hfs hcheck hsite.scratchName hsite.scratchSlash
    (h.scratch file scratch habsolute hscratch)
  exact ⟨directory, name, hsite, source_ne_target hfs hcreated hsite.scratchName hsole hfile
    (h.entryAt?_scratch_ne habsolute hfile hscratch hsite), hsole, hcreated.writesTo hfs more,
    (hcreated.climbsAs_append more).absolute hfs habsolute⟩

end Ready

/-! ## Creating again -/

/-- Creating where a file was created and written before empties it, and gives the tree that
creating gave then. -/
theorem create_append_of_create (hfs : fs.WellFormed)
    (hcreate : fs.create scratch = .ok (created, target))
    (hname : fs.nameOf? scratch = some (directory, name))
    (hslash : (Route.ofPath scratch).slash = false)
    (hsole : SoleFile created directory name target []) :
    (created.append target bytes).create scratch = .ok (created, target) := by
  obtain ⟨hcheck, hcreated⟩ := created_of_create hcreate
  have hwrites := hcreated.writesTo hfs bytes
  have hfull : SoleFile (created.append target bytes) directory name target bytes :=
    hsole.append bytes
  have hplace : (created.append target bytes).placeOf .followBare scratch =
      .ok (.entry directory name false) := by
    rw [← hslash]
    refine placeOf_of_nameOf? hwrites.wellFormed ?_ (by simp [linkAt?, hfull.lookup, hfull.node])
    exact (hwrites.sameDirectories.nameOf?_eq hfs hwrites.wellFormed scratch).trans hname
  have hdots := (hwrites.wellFormed.isEntryName hfull.lookup).2.2.1
  have hchild := hwrites.wellFormed.child_of_lookup hfull.lookup
  have hplain : (created.append target bytes).isDirectoryNode target = false :=
    isDirectoryNode_eq_false hfull.node rfl
  -- What was written goes, and nothing else had changed.
  have hemptied : (created.append target bytes).modify target .truncated = created := by
    have hchange : (created.append target bytes).modify target .truncated =
        created.modify target (Node.truncated ∘ Node.extended bytes) := by
      simp only [append, FileSystem.modify, List.modify_modify_eq]
    rw [hchange]
    refine modify_eq_self fun node hnode ↦ ?_
    obtain rfl : node = .file [] := Option.some.inj (hnode.symm.trans hsole.node)
    rfl
  simp [create, bind, Except.bind, hcheck, hplace, hdots, hchild, hplain, hemptied]

/-! ## Leftovers -/

/-- The tree is `fs`, but for a scratch file that was created and written. -/
inductive Leftover (path : Text) (fs : FileSystem) : FileSystem → Prop where
  | none : Leftover path fs fs
  | scratch {created : FileSystem} {source target : Inode} {file scratch : Text} {bytes : Bytes} :
      fs.absolute path = .ok file → fs.resolve file = .ok source →
      fs.isDirectoryNode source = false → Path.sibling file = some scratch →
      fs.create scratch = .ok (created, target) → Leftover path fs (created.append target bytes)

/-- A replacement that fails leaves the tree, or it has written to what it created. -/
theorem fileSystem_of_replaceThrough_error {failure : Failure}
    (herror : (replaceThrough table observer fs source file scratch).outcome = .error failure) :
    (replaceThrough table observer fs source file scratch).fileSystem = fs ∨
      ∃ created target bytes, fs.create scratch = .ok (created, target) ∧
        (replaceThrough table observer fs source file scratch).fileSystem =
          created.append target bytes := by
  have hended := ended_of_replaceThrough table observer fs source file scratch
  generalize replaceThrough table observer fs source file scratch = run at herror hended
  cases hended with
  | uncreated => exact .inl rfl
  | unedited hcreate => exact .inr ⟨_, _, _, hcreate, rfl⟩
  | unflushed hcreate => exact .inr ⟨_, _, _, hcreate, rfl⟩
  | unswapped hcreate => exact .inr ⟨_, _, _, hcreate, rfl⟩
  | swapped => cases herror

/-- A migration that fails leaves at most a scratch file. -/
theorem leftover_of_error {failure : Failure}
    (herror : (migrate table dryRun observer fs path).outcome = .error failure) :
    Leftover path fs (migrate table dryRun observer fs path).fileSystem := by
  rcases migrate_cases table dryRun observer fs path with ⟨_, hrun, -⟩ |
    ⟨file, source, habsolute, hfile, hplain, ⟨-, hrun⟩ | ⟨-, scratch, hscratch, hrun⟩⟩
  · rw [hrun]
    exact .none
  · rw [hrun, fileSystem_rehearse]
    exact .none
  · rw [hrun] at herror ⊢
    rcases fileSystem_of_replaceThrough_error herror with hkept | ⟨_, _, _, hcreate, hwritten⟩
    · rw [hkept]
      exact .none
    · rw [hwritten]
      exact .scratch habsolute hfile hplain hscratch hcreate

namespace Leftover

/-- With a leftover beside it, the path is as ready as it was. -/
theorem ready (h : Leftover path fs other) (hready : Ready fs path bytes) :
    Ready other path bytes := by
  cases h with
  | none => exact hready
  | @scratch created source target file scratch more habsolute hfile hplain hscratch hcreate =>
    have hfs := hready.wellFormed
    obtain ⟨directory, name, hsite, hne, hsole, hwrites, habsolute'⟩ :=
      hready.exists_site_of_create habsolute hfile hscratch hplain hcreate more
    obtain ⟨upper, hform⟩ := isAbsoluteForm_of_absolute hfs habsolute
    have hnameOf := hwrites.sameDirectories.nameOf?_eq hfs hwrites.wellFormed
    obtain ⟨hname, hlookup, hnode, -⟩ := hready.name_of_site habsolute hfile hsite
    refine ⟨hwrites.wellFormed, ⟨?_, source, ?_, ?_⟩, fun asked beside hasked hbeside ↦ ?_⟩
    · rw [hwrites.read?_eq hfs hform hfile hplain hne]
      exact hready.file.read
    · simp [entryAt?, hnameOf, hname, hwrites.touches.lookup_of_some hlookup]
    · exact hwrites.touches.node?_plain hne hnode rfl
    · -- The path has the absolute form that it had, so this is the scratch file.
      cases habsolute'.symm.trans hasked
      cases hscratch.symm.trans hbeside
      exact .inr ((hsole.append more).isLoneFile hwrites.wellFormed
        ((hnameOf scratch).trans hsite.scratchName))

/-- A migration beside a leftover tells and ends as it would without it; one that is no dry run
leaves the same tree. -/
theorem run_eq (h : Leftover path fs other) (hready : Ready fs path bytes) (table : Table)
    (dryRun : Bool) (observer : Observer) :
    (migrate table dryRun observer other path).outcome =
        (migrate table dryRun observer fs path).outcome ∧
      (migrate table dryRun observer other path).told =
        (migrate table dryRun observer fs path).told ∧
      (dryRun = false →
        migrate table dryRun observer other path = migrate table dryRun observer fs path) := by
  cases h with
  | none => exact ⟨rfl, rfl, fun _ ↦ rfl⟩
  | @scratch created source target file scratch more habsolute hfile hplain hscratch hcreate =>
    have hfs := hready.wellFormed
    obtain ⟨directory, name, hsite, hne, hsole, hwrites, habsolute'⟩ :=
      hready.exists_site_of_create habsolute hfile hscratch hplain hcreate more
    have hagain : (created.append target more).create scratch = .ok (created, target) :=
      create_append_of_create hfs hcreate hsite.scratchName hsite.scratchSlash hsole
    have hfile' : (created.append target more).resolve file = .ok source :=
      resolve_carry hfs hwrites.wellFormed hwrites.carries
        hwrites.sameDirectories.workingDirectory trivial hfile
    have hcontents : (created.append target more).contents source = fs.contents source :=
      hwrites.touches.contents_eq hne hplain
    rw [migrate_eq habsolute hfile hplain hscratch,
      migrate_eq habsolute' hfile' (hwrites.back.plain hplain) hscratch]
    cases dryRun with
    | true =>
      obtain ⟨htold, houtcome⟩ := rehearse_congr table observer file hcontents
      exact ⟨houtcome, htold, fun hdry ↦ by cases hdry⟩
    | false =>
      have hrun : replaceThrough table observer (created.append target more) source file scratch =
          replaceThrough table observer fs source file scratch := by
        simp only [replaceThrough, hagain, hcreate]
      exact ⟨congrArg _ hrun, congrArg _ hrun, fun _ ↦ hrun⟩

end Leftover

end LineMigration.Migration
