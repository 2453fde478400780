import LineMigration.Proofs.FileSystem.Patch
import LineMigration.Proofs.Migration.History

/-!
# Migrations of different files

What a migration of a regular file does, whose scratch file is its own, depends on nothing but the
bytes of the file: it has one `Effect` on every tree in which the two names that it `Uses` are as
they are (`Ready.exists_effect`). A migration that uses other names leaves these as they are, so the
two have their effects in either order (`migrations_commute`). The two paths may be names of one
file: a migration replaces what its name stands for, and never writes to it.
-/

namespace LineMigration.Migration

open LineMigration.Stream LineMigration.FileSystem

variable {table : Table} {observer : Observer} {fs after created : FileSystem}
  {directory source target : Inode} {name : Name} {file scratch path : Text} {bytes : Bytes}
  {patch : Patch}

/-! ## Effects -/

/-- What a migration tells, how it ends, and what becomes of names. -/
structure Effect where
  told : List Change
  outcome : Except Failure Result
  patch : Patch

/-- A run that began with the tree `fs` has an effect. -/
structure HasEffect (effect : Effect) (fs : FileSystem) (run : Run) : Prop where
  told : run.told = effect.told
  outcome : run.outcome = effect.outcome
  patched : Patched fs effect.patch run.fileSystem

/-- What becomes of a file and its scratch file where the one is replaced through the other. -/
def replacingPatch (directory : Inode) (name : Name) (bytes : Bytes) : Patch :=
  (Patch.single directory name (.file bytes)).union
    (.single directory (name ++ Path.scratchEnding) .gone)

/-- The effect of replacing a file that holds these bytes, through a scratch file of its own. -/
def replacement (table : Table) (observer : Observer) (file scratch : Text) (directory : Inode)
    (name : Name) (bytes : Bytes) : Effect :=
  let run := editAll table observer (.ofBytes bytes)
    (Buffered.before (.fresh none (.system .noSpace)))
  let leaves (bytes : Bytes) : Patch :=
    .single directory (name ++ Path.scratchEnding) (.file bytes)
  match run.outcome with
  | .error failure => ⟨run.changes, .error (.edit file failure), leaves run.writer.close.taken⟩
  | .ok changes =>
    let (flushed, refused) := run.writer.flush
    match refused with
    | some cause => ⟨run.changes, .error (.flush scratch cause), leaves flushed.close.taken⟩
    | none =>
      ⟨run.changes, .ok ⟨file, changes, true⟩,
        replacingPatch directory name flushed.close.taken⟩

/-! ## The two names -/

/-- The names that a migration of a path works with: that of the path and that beside it. -/
inductive Uses (fs : FileSystem) (path : Text) : Inode → Name → Prop where
  | path {directory : Inode} {name : Name} :
      fs.nameOf? path = some (directory, name) → Uses fs path directory name
  | scratch {file scratch : Text} {directory : Inode} {name : Name} :
      fs.absolute path = .ok file → Path.sibling file = some scratch →
      fs.nameOf? scratch = some (directory, name) → Uses fs path directory name

/-- A patch leaves the names alone that a migration of the path works with. -/
def Spares (patch : Patch) (fs : FileSystem) (path : Text) : Prop :=
  ∀ directory name, Uses fs path directory name → patch directory name = none

/-- The absolute form of an absolute path is the same in every tree. -/
theorem exists_absolute (h : Path.isAbsolute path = true) :
    ∃ file, ∀ fs : FileSystem, fs.absolute path = .ok file := by
  have hne : path ≠ [] := by
    rintro rfl
    cases h
  exact ⟨_, fun fs ↦ by rw [FileSystem.absolute, Path.absolute, if_neg hne, if_pos h]⟩

/-- The scratch path of a path that is ready names no link. -/
theorem Ready.linkAt?_scratch (h : Ready fs path bytes) (habsolute : fs.absolute path = .ok file)
    (hscratch : Path.sibling file = some scratch)
    (hname : fs.nameOf? scratch = some (directory, name)) : fs.linkAt? directory name = none := by
  rcases h.scratch file scratch habsolute hscratch with hnone | hlone
  · have hlookup : fs.lookup directory name = none := by simpa [entryAt?, hname] using hnone
    simp [linkAt?, hlookup]
  · obtain ⟨inode, found, hsole⟩ := hlone.soleFile hname
    simp [linkAt?, hsole.lookup, hsole.node]

section

variable (h : Ready fs path bytes) (hpatched : Patched fs patch after)
  (hspares : Spares patch fs path)
include h hpatched hspares

/-- Where other names are changed, a path that is ready stands for the same file. -/
theorem Ready.file_of_patched (hresolve : fs.resolve path = .ok source) :
    after.entryAt? path = some source ∧ after.node? source = some (.file bytes) ∧
      after.resolve path = .ok source := by
  have hfs := h.wellFormed
  have hafter := hpatched.wellFormed
  obtain ⟨directory, name, found, hname, hlookup, hnode, hfound⟩ :=
    exists_name_of_isFileAt hfs h.file
  cases hresolve.symm.trans hfound
  obtain ⟨hslash, -⟩ := nameOf?_of_resolve hfs hresolve (isDirectoryNode_eq_false hnode rfl)
  have hfate := hspares directory name (.path hname)
  have hkept := (hpatched.lookup_eq hfs hfate).trans hlookup
  have hsame := hpatched.node?_eq hfs hfate hlookup hnode rfl
  have hpath := (hpatched.sameDirectories.nameOf?_eq hfs hafter path).trans hname
  exact ⟨by simp [entryAt?, hpath, hkept], hsame, resolve_of_nameOf? hafter
    (checkPath_of_resolve hresolve) hpath hslash hkept (by simp [hsame])⟩

/-- And it stays ready. -/
theorem Ready.of_patched (habsolute : Path.isAbsolute path = true) : Ready after path bytes := by
  have hfs := h.wellFormed
  have hafter := hpatched.wellFormed
  have hnameOf := hpatched.sameDirectories.nameOf?_eq hfs hafter
  obtain ⟨_, _, source, -, -, -, hresolve⟩ := exists_name_of_isFileAt hfs h.file
  obtain ⟨hentry, hnode, hfound⟩ := h.file_of_patched hpatched hspares hresolve
  obtain ⟨form, hform⟩ := exists_absolute habsolute
  refine ⟨hafter, ⟨by simp [read?, hfound, hnode], source, hentry, hnode⟩, ?_⟩
  intro file scratch hfile hscratch
  cases (hform after).symm.trans hfile
  cases hname : fs.nameOf? scratch with
  | none => exact .inl (by simp [entryAt?, hnameOf, hname])
  | some found =>
    obtain ⟨directory, name⟩ := found
    have hfate := hspares directory name (.scratch (hform fs) hscratch hname)
    rcases h.scratch _ scratch (hform fs) hscratch with hnone | hlone
    · have hlookup : fs.lookup directory name = none := by simpa [entryAt?, hname] using hnone
      exact .inl (by simp [entryAt?, hnameOf, hname, hpatched.lookup_eq hfs hfate, hlookup])
    · obtain ⟨inode, old, hsole⟩ := hlone.soleFile hname
      exact .inr ((hpatched.soleFile hfs hfate hsole).isLoneFile hafter
        ((hnameOf scratch).trans hname))

/-- The file and its scratch file keep their names. -/
theorem Ready.site_of_patched (hfileForm : ∀ fs : FileSystem, fs.absolute path = .ok file)
    (hscratch : Path.sibling file = some scratch) (hfile : fs.resolve file = .ok source)
    (hsite : Site fs file scratch directory name source) :
    after.resolve file = .ok source ∧ Site after file scratch directory name source := by
  have hafter := hpatched.wellFormed
  obtain ⟨-, -, -, hresolve⟩ := h.name_of_site (hfileForm fs) hfile hsite
  obtain ⟨-, hnode, hfound⟩ := h.file_of_patched hpatched hspares hresolve
  have hplain := isDirectoryNode_eq_false hnode rfl
  have hfileAfter :=
    resolve_absolute hafter (hfileForm after) (checkPath_of_resolve hfile) hfound hplain
  obtain ⟨beside, inside, last, hbeside, hsiteAfter⟩ :=
    site_of_resolve hafter (hfileForm after) hfileAfter hplain
  cases hscratch.symm.trans hbeside
  have hlast := (hpatched.sameDirectories.nameOf?_eq h.wellFormed hafter file).trans hsite.fileName
  cases hsiteAfter.fileName.symm.trans hlast
  exact ⟨hfileAfter, hsiteAfter⟩

end

/-! ## The effect of a replacement -/

/-- Filling a scratch file of its own changes its name and no other. -/
theorem patched_of_created (hfs : fs.WellFormed) (hcreated : Created fs scratch created target)
    (hsole : SoleFile created directory name target []) (bytes : Bytes) :
    Patched fs (.single directory name (.file bytes)) (created.append target bytes) := by
  have hwrites := hcreated.writesTo hfs bytes
  have hfull := hsole.append bytes
  refine ⟨hwrites.wellFormed, hwrites.sameDirectories,
    (hfull.unchangedBut hwrites.touches).weaken ?_, ?_, ?_⟩
  · rintro asked askedName ⟨rfl, rfl⟩
    simp
  · intro asked askedName hgone
    simp at hgone
  · intro asked askedName found hfile
    obtain ⟨⟨rfl, rfl⟩, heq⟩ := Patch.single_eq_some_iff.1 hfile
    cases heq
    exact ⟨target, hfull⟩

theorem replacingPatch_eq_some_iff {asked : Inode} {askedName : Name} {fate : Fate} :
    replacingPatch directory name bytes asked askedName = some fate ↔
      (asked = directory ∧ askedName = name) ∧ Fate.file bytes = fate ∨
        (asked = directory ∧ askedName = name ++ Path.scratchEnding) ∧ Fate.gone = fate := by
  have hne : name ≠ name ++ Path.scratchEnding := by simp [Path.scratchEnding]
  rw [replacingPatch, Patch.union_eq_some_iff (Patch.disjoint_single hne),
    Patch.single_eq_some_iff, Patch.single_eq_some_iff]

/-- Replacing a file changes its name and that of the scratch file, and no other. -/
theorem patched_of_replaced (h : Replaced fs after directory name source bytes) :
    Patched fs (replacingPatch directory name bytes) after := by
  refine ⟨h.wellFormed, h.sameDirectories, h.others.weaken ?_, ?_, ?_⟩
  · rintro asked askedName hhere
    refine Option.ne_none_iff_exists'.2 ?_
    rcases hhere with hfile | hscratch
    · exact ⟨_, replacingPatch_eq_some_iff.2 (.inl ⟨hfile, rfl⟩)⟩
    · exact ⟨_, replacingPatch_eq_some_iff.2 (.inr ⟨hscratch, rfl⟩)⟩
  · intro asked askedName hgone
    rcases replacingPatch_eq_some_iff.1 hgone with ⟨-, heq⟩ | ⟨⟨rfl, rfl⟩, -⟩
    · cases heq
    · exact h.scratch
  · intro asked askedName found hfile
    rcases replacingPatch_eq_some_iff.1 hfile with ⟨⟨rfl, rfl⟩, heq⟩ | ⟨-, heq⟩
    · cases heq
      exact h.file
    · cases heq

/-- A replacement through a scratch file of its own has the effect of one. -/
theorem hasEffect_replaceThrough (h : Ready fs path bytes) (habsolute : fs.absolute path = .ok file)
    (hscratch : Path.sibling file = some scratch) (hfile : fs.resolve file = .ok source)
    (hsite : Site fs file scratch directory name source)
    (hcreate : fs.create scratch = .ok (created, target)) :
    HasEffect (replacement table observer file scratch directory name bytes) fs
      (replaceThrough table observer fs source file scratch) := by
  have hfs := h.wellFormed
  obtain ⟨-, hlookup, hnode, -⟩ := h.name_of_site habsolute hfile hsite
  obtain ⟨hcheck, hcreated⟩ := created_of_create hcreate
  have hsole : SoleFile created directory (name ++ Path.scratchEnding) target [] :=
    hcreated.soleFile hfs hcheck hsite.scratchName hsite.scratchSlash
      (h.scratch file scratch habsolute hscratch)
  have hne : source ≠ target := source_ne_target hfs hcreated hsite.scratchName hsole hfile
    (h.entryAt?_scratch_ne habsolute hfile hscratch hsite)
  -- The edit reads the bytes of the file and writes to an empty file, whatever the tree is.
  have hcontents : created.contents source = bytes := by
    rw [hcreated.touchesOnly.contents_eq hne hsite.plain, contents, hnode]
    rfl
  have hwriter : writerTo created target = .before (.fresh none (.system .noSpace)) := by
    rw [writerTo, hsole.node]
    rfl
  have hwritten : ∀ more, Patched fs _ (created.append target more) :=
    patched_of_created hfs hcreated hsole
  have hrename : ∀ more, (created.append target more).rename scratch file = .ok
      ((created.append target more).relocate (directory, name ++ Path.scratchEnding)
        (directory, name) target) := by
    intro more
    obtain ⟨moved, victim, hmoved, -, hvictim, hmoves⟩ :=
      rename_scratch hfs hsite (checkPath_of_resolve hfile) hcheck hcreated more
    obtain ⟨rfl, hdiffer⟩ := (hsole.append more).moved hmoved hvictim
    rw [hmoves, if_neg hdiffer]
  unfold replaceThrough replacement
  simp only [hcreate, hcontents, hwriter]
  generalize editAll table observer (.ofBytes bytes)
    (Buffered.before (.fresh none (.system .noSpace))) = run
  cases run.outcome with
  | error failure => exact ⟨rfl, rfl, hwritten _⟩
  | ok changes =>
    cases run.writer.flush with
    | mk flushed refused =>
      cases refused with
      | some cause => exact ⟨rfl, rfl, hwritten _⟩
      | none =>
        dsimp only
        rw [hrename]
        exact ⟨rfl, rfl,
          patched_of_replaced (replaced_of_relocate hfs hsite hcreated hne hsole)⟩

/-! ## One effect on many trees -/

/-- A replacement changes no names but the two. -/
theorem name_of_replacement {asked : Inode} {askedName : Name}
    (h : (replacement table observer file scratch directory name bytes).patch asked askedName ≠
      none) : asked = directory ∧ (askedName = name ∨ askedName = name ++ Path.scratchEnding) := by
  obtain ⟨fate, hfate⟩ := Option.ne_none_iff_exists'.1 h
  unfold replacement at hfate
  dsimp only at hfate
  split at hfate
  · obtain ⟨⟨hdirectory, hname⟩, -⟩ := Patch.single_eq_some_iff.1 hfate
    exact ⟨hdirectory, .inr hname⟩
  split at hfate
  · obtain ⟨⟨hdirectory, hname⟩, -⟩ := Patch.single_eq_some_iff.1 hfate
    exact ⟨hdirectory, .inr hname⟩
  · rcases replacingPatch_eq_some_iff.1 hfate with ⟨⟨hdirectory, hname⟩, -⟩ |
      ⟨⟨hdirectory, hname⟩, -⟩
    · exact ⟨hdirectory, .inl hname⟩
    · exact ⟨hdirectory, .inr hname⟩

/-- A run that leaves the tree as it is has an effect without a patch. -/
theorem hasEffect_of_fileSystem_eq (run : Run) (hfs : fs.WellFormed) (h : run.fileSystem = fs) :
    HasEffect ⟨run.told, run.outcome, .empty⟩ fs run := by
  refine ⟨rfl, rfl, ?_⟩
  rw [h]
  exact .refl hfs

/-- A call has one effect on the tree and on all those in which only names have changed that it does
not use, and changes no name that it does not use. -/
structure Steady (fs : FileSystem) (path : Text) (call : Call) (effect : Effect) : Prop where
  uses : ∀ directory name, effect.patch directory name ≠ none → Uses fs path directory name
  hasEffect : ∀ patch after, Patched fs patch after → Spares patch fs path →
    HasEffect effect after (call.run after path)

section

variable (hform : ∀ fs : FileSystem, fs.absolute path = .ok file)
include hform

/-- A path whose absolute form the system does not look at is found in no tree. -/
theorem steady_of_checkPath {cause : Cause} (hcheck : checkPath file = .error cause)
    (call : Call) : Steady fs path call ⟨[], .error (.openFile file cause), .empty⟩ := by
  refine ⟨fun _ _ hne ↦ absurd rfl hne, fun patch after hpatched _ ↦ ?_⟩
  have hfile : after.resolve file = .error cause := by
    simp [resolve, hcheck, bind, Except.bind]
  have hrun : call.run after path = .failed after (.openFile file cause) := by
    simp [Call.run, migrate, hform, isDirectory, hfile, openRead]
  rw [hrun]
  exact hasEffect_of_fileSystem_eq (.failed after _) hpatched.wellFormed rfl

/-- Whether the scratch file can be created is the same in all trees. -/
theorem Ready.create_map_eq (h : Ready fs path bytes) (hscratch : Path.sibling file = some scratch)
    (hsite : Site fs file scratch directory name source) (hpatched : Patched fs patch after)
    (hspares : Spares patch fs path) (hready : Ready after path bytes)
    (hsiteAfter : Site after file scratch directory name source) :
    (after.create scratch).map (fun _ ↦ ()) = (fs.create scratch).map fun _ ↦ () :=
  hpatched.create_map_eq h.wellFormed hsite.scratchName
    (hspares _ _ (.scratch (hform fs) hscratch hsite.scratchName))
    (h.linkAt?_scratch (hform fs) hscratch hsite.scratchName)
    (hready.linkAt?_scratch (hform after) hscratch hsiteAfter.scratchName)

variable (h : Ready fs path bytes) (hscratch : Path.sibling file = some scratch)
  (hfile : fs.resolve file = .ok source) (hsite : Site fs file scratch directory name source)
include h hscratch hfile hsite

/-- A dry run reads the same file in all trees. -/
theorem Ready.steady_rehearse (table : Table) (observer : Observer) :
    Steady fs path ⟨table, true, observer⟩ ⟨(rehearse table observer fs source file).told,
      (rehearse table observer fs source file).outcome, .empty⟩ := by
  refine ⟨fun _ _ hne ↦ absurd rfl hne, fun patch after hpatched hspares ↦ ?_⟩
  obtain ⟨-, -, hnode, hresolve⟩ := h.name_of_site (hform fs) hfile hsite
  obtain ⟨-, hnodeAfter, -⟩ := h.file_of_patched hpatched hspares hresolve
  obtain ⟨hfileAfter, hsiteAfter⟩ := h.site_of_patched hpatched hspares hform hscratch hfile hsite
  have hcontents : after.contents source = fs.contents source := by
    rw [contents, contents, hnode, hnodeAfter]
  obtain ⟨htold, houtcome⟩ := rehearse_congr table observer file hcontents
  rw [Call.run, migrate_eq (hform after) hfileAfter hsiteAfter.plain hscratch, if_pos rfl,
    ← htold, ← houtcome]
  exact hasEffect_of_fileSystem_eq _ hpatched.wellFormed (fileSystem_rehearse ..)

/-- Without a scratch file all replacements fail alike, and with one they replace the same bytes. -/
theorem Ready.exists_steady_replaceThrough (habsolute : Path.isAbsolute path = true)
    (table : Table) (observer : Observer) :
    ∃ effect, Steady fs path ⟨table, false, observer⟩ effect := by
  have hrun : ∀ patch after, Patched fs patch after → Spares patch fs path →
      Ready after path bytes ∧ after.resolve file = .ok source ∧
        Site after file scratch directory name source ∧
        (after.create scratch).map (fun _ ↦ ()) = (fs.create scratch).map (fun _ ↦ ()) ∧
        Call.run ⟨table, false, observer⟩ after path =
          replaceThrough table observer after source file scratch := by
    intro patch after hpatched hspares
    have hready := h.of_patched hpatched hspares habsolute
    obtain ⟨hfileAfter, hsiteAfter⟩ := h.site_of_patched hpatched hspares hform hscratch hfile hsite
    refine ⟨hready, hfileAfter, hsiteAfter,
      h.create_map_eq hform hscratch hsite hpatched hspares hready hsiteAfter, ?_⟩
    rw [Call.run, migrate_eq (hform after) hfileAfter hsiteAfter.plain hscratch,
      if_neg Bool.false_ne_true]
  cases hcreate : fs.create scratch with
  | error cause =>
    refine ⟨⟨[], .error (.create scratch cause), .empty⟩, fun _ _ hne ↦ absurd rfl hne,
      fun patch after hpatched hspares ↦ ?_⟩
    obtain ⟨-, -, -, hsame, hreplace⟩ := hrun patch after hpatched hspares
    cases hafter : after.create scratch with
    | ok => simp [hcreate, hafter, Except.map] at hsame
    | error found =>
      obtain rfl : found = cause := by simpa [hcreate, hafter, Except.map] using hsame
      rw [hreplace, replaceThrough, hafter]
      exact hasEffect_of_fileSystem_eq (.failed after _) hpatched.wellFormed rfl
  | ok =>
    refine ⟨replacement table observer file scratch directory name bytes, ?_,
      fun patch after hpatched hspares ↦ ?_⟩
    · intro asked askedName hne
      obtain ⟨rfl, rfl | rfl⟩ := name_of_replacement hne
      · exact .path (h.name_of_site (hform fs) hfile hsite).1
      · exact .scratch (hform fs) hscratch hsite.scratchName
    obtain ⟨hready, hfileAfter, hsiteAfter, hsame, hreplace⟩ := hrun patch after hpatched hspares
    cases hafter : after.create scratch with
    | error => simp [hcreate, hafter, Except.map] at hsame
    | ok result =>
      rw [hreplace]
      exact hasEffect_replaceThrough hready (hform after) hscratch hfileAfter hsiteAfter hafter

end

/-- A migration of an absolute path that is ready has one effect on all trees in which the names
that it uses are as they are. -/
theorem Ready.exists_steady (h : Ready fs path bytes) (habsolute : Path.isAbsolute path = true)
    (call : Call) : ∃ effect, Steady fs path call effect := by
  obtain ⟨table, dryRun, observer⟩ := call
  obtain ⟨file, hform⟩ := exists_absolute habsolute
  obtain ⟨_, _, source, -, -, hnode, hresolve⟩ := exists_name_of_isFileAt h.wellFormed h.file
  have hplain := isDirectoryNode_eq_false hnode rfl
  cases hcheck : checkPath file with
  | error cause => exact ⟨_, steady_of_checkPath hform hcheck _⟩
  | ok =>
    have hfile := resolve_absolute h.wellFormed (hform fs) hcheck hresolve hplain
    obtain ⟨scratch, directory, name, hscratch, hsite⟩ :=
      site_of_resolve h.wellFormed (hform fs) hfile hplain
    cases dryRun with
    | true => exact ⟨_, h.steady_rehearse hform hscratch hfile hsite table observer⟩
    | false =>
      exact h.exists_steady_replaceThrough hform hscratch hfile hsite habsolute table observer

/-! ## Two migrations -/

/-- Migrations of two absolute paths that are regular files, be they names of one file, each beside
nothing or a file without another name, and with no name used by both: in either order they have the
same outcomes, tell the same changes and leave the same tree. -/
theorem migrations_commute {other : Text} {otherBytes : Bytes} (hpath : Ready fs path bytes)
    (hother : Ready fs other otherBytes) (habsolute : Path.isAbsolute path = true)
    (hotherAbsolute : Path.isAbsolute other = true)
    (hdisjoint : ∀ directory name, Uses fs path directory name → ¬ Uses fs other directory name)
    (call otherCall : Call) :
    let first := call.run fs path
    let second := otherCall.run first.fileSystem other
    let otherFirst := otherCall.run fs other
    let otherSecond := call.run otherFirst.fileSystem path
    SameTree second.fileSystem otherSecond.fileSystem ∧
      otherSecond.outcome = first.outcome ∧ otherSecond.told = first.told ∧
      otherFirst.outcome = second.outcome ∧ otherFirst.told = second.told := by
  intro first second otherFirst otherSecond
  have hfs := hpath.wellFormed
  obtain ⟨effect, heffect⟩ := hpath.exists_steady habsolute call
  obtain ⟨otherEffect, hotherEffect⟩ := hother.exists_steady hotherAbsolute otherCall
  have hspares : Spares otherEffect.patch fs path := by
    intro directory name huses
    by_contra hfate
    exact hdisjoint directory name huses (hotherEffect.uses directory name hfate)
  have hotherSpares : Spares effect.patch fs other := by
    intro directory name huses
    by_contra hfate
    exact hdisjoint directory name (heffect.uses directory name hfate) huses
  have hpatches : effect.patch.Disjoint otherEffect.patch := by
    intro directory name
    by_cases hfate : effect.patch directory name = none
    · exact .inl hfate
    · exact .inr (hspares directory name (heffect.uses directory name hfate))
  have hfirst : HasEffect effect fs first := heffect.hasEffect _ _ (.refl hfs) fun _ _ _ ↦ rfl
  have hotherFirst : HasEffect otherEffect fs otherFirst :=
    hotherEffect.hasEffect _ _ (.refl hfs) fun _ _ _ ↦ rfl
  have hsecond : HasEffect otherEffect first.fileSystem second :=
    hotherEffect.hasEffect _ _ hfirst.patched hotherSpares
  have hotherSecond : HasEffect effect otherFirst.fileSystem otherSecond :=
    heffect.hasEffect _ _ hotherFirst.patched hspares
  -- Each order leaves the tree of both patches.
  have hboth := hfirst.patched.trans hsecond.patched hpatches
  have hotherBoth := hotherFirst.patched.trans hotherSecond.patched hpatches.symm
  rw [Patch.union_comm hpatches.symm] at hotherBoth
  exact ⟨hboth.sameTree hotherBoth hfs, hotherSecond.outcome.trans hfirst.outcome.symm,
    hotherSecond.told.trans hfirst.told.symm, hotherFirst.outcome.trans hsecond.outcome.symm,
    hotherFirst.told.trans hsecond.told.symm⟩

/-- Two names of one file, the one migrated and the other stopped at its first change: in either
order the first name has a file of its own afterwards, and the other reads what it read. -/
theorem migrations_commute_hard_links :
    let fs : FileSystem := ⟨[.directory [(['f'], 1), (['g'], 1)] root, .file [97, 10]], root⟩
    let call : Call := ⟨[⟨['a'], ['b']⟩], false, .silent⟩
    let stopped : Call := ⟨[⟨['a'], ['c']⟩], false, .stopsAt 0 (.io [] none)⟩
    let after := (stopped.run (call.run fs ['/', 'f']).fileSystem ['/', 'g']).fileSystem
    let other := (call.run (stopped.run fs ['/', 'g']).fileSystem ['/', 'f']).fileSystem
    fs.WellFormed ∧ fs.entryAt? ['/', 'f'] = fs.entryAt? ['/', 'g'] ∧ SameTree after other ∧
      after ≠ other ∧ after.read? ['/', 'f'] = some [98, 10] ∧
      other.read? ['/', 'g'] = some [97, 10] := by
  intro fs call stopped after other
  have hfs : fs.WellFormed := by decide
  have hforms : ∀ letter ∈ ['f', 'g'], fs.absolute ['/', letter] = .ok ['/', letter] ∧
      Path.sibling ['/', letter] = some ['/', letter, '-', 'n', 'e', 'w'] ∧
      fs.nameOf? ['/', letter] = some (root, [letter]) ∧
      fs.nameOf? ['/', letter, '-', 'n', 'e', 'w'] = some (root, [letter, '-', 'n', 'e', 'w']) ∧
      fs.entryAt? ['/', letter, '-', 'n', 'e', 'w'] = none ∧
      fs.IsFileAt ['/', letter] [97, 10] := by
    intro letter hletter
    obtain rfl | rfl : letter = 'f' ∨ letter = 'g' := by simpa using hletter
    · exact ⟨rfl, rfl, rfl, rfl, rfl, rfl, 1, rfl, rfl⟩
    · exact ⟨rfl, rfl, rfl, rfl, rfl, rfl, 1, rfl, rfl⟩
  have hready : ∀ letter ∈ ['f', 'g'], Ready fs ['/', letter] [97, 10] := by
    intro letter hletter
    obtain ⟨hform, hsibling, -, -, hentry, hfile⟩ := hforms letter hletter
    refine ⟨hfs, hfile, fun file scratch habsolute hscratch ↦ .inl ?_⟩
    cases hform.symm.trans habsolute
    cases hsibling.symm.trans hscratch
    exact hentry
  have huses : ∀ letter ∈ ['f', 'g'], ∀ directory name, Uses fs ['/', letter] directory name →
      name.head? = some letter := by
    intro letter hletter directory name huses
    obtain ⟨hform, hsibling, hname, hbeside, -⟩ := hforms letter hletter
    cases huses with
    | path hasked =>
      cases hname.symm.trans hasked
      rfl
    | scratch habsolute hscratch hasked =>
      cases hform.symm.trans habsolute
      cases hsibling.symm.trans hscratch
      cases hbeside.symm.trans hasked
      rfl
  have hdisjoint : ∀ directory name, Uses fs ['/', 'f'] directory name →
      ¬ Uses fs ['/', 'g'] directory name := by
    intro directory name hfirst hsecond
    cases (huses 'f' (by decide) _ _ hfirst).symm.trans (huses 'g' (by decide) _ _ hsecond)
  obtain ⟨hsame, -⟩ := migrations_commute (hready 'f' (by decide)) (hready 'g' (by decide)) rfl rfl
    hdisjoint call stopped
  exact ⟨hfs, rfl, hsame, by decide +kernel, by decide +kernel, by decide +kernel⟩

end LineMigration.Migration
