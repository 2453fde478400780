import LineMigration.Proofs.Migration.Reading

/-!
# The bytes that a path gives

Whatever a path leads to, a migration that fails leaves what reading it gives
(`bytesAt?_of_error`). One that succeeds has edited it, if the scratch path leads neither to the
file nor to a device, and told every line that it has edited (`bytesAt?_of_ok`); so with nothing to
tell it reads as before. An observer that stops at every change lets only such a migration succeed
(`changes_eq_nil_of_refuses`).

A path that does not resolve, although its absolute form does, has nothing to give before or after.
-/

namespace LineMigration

namespace FileSystem

variable {fs other : FileSystem} {inode source target : Inode} {path file scratch : Text}
  {upper : List Name} {bytes : Bytes} {cause : Cause}

/-- The scratch file of a path leads neither to what the path leads to nor to a device. -/
def ScratchApart (fs : FileSystem) (path : Text) : Prop :=
  ∀ file scratch source, fs.absolute path = .ok file → Path.sibling file = some scratch →
    fs.resolve path = .ok source → fs.Apart scratch source

/-- A scratch path that leads nowhere leads to none of them. -/
theorem scratchApart_of_resolve_error (habsolute : fs.absolute path = .ok file)
    (hscratch : Path.sibling file = some scratch) (herror : fs.resolve scratch = .error cause) :
    fs.ScratchApart path := by
  intro asked beside source hasked hbeside _ target htarget
  cases habsolute.symm.trans hasked
  cases hscratch.symm.trans hbeside
  cases herror.symm.trans htarget

/-- What is read of a regular file. -/
theorem bytesAt?_of_read? (h : fs.read? path = some bytes) : fs.bytesAt? path = some bytes := by
  obtain ⟨inode, hpath, hnode⟩ := Migration.node?_of_read? h
  simp [bytesAt?, hpath, isDirectoryNode_eq_false hnode rfl, contents, hnode, Node.contents]

/-- Nothing is read where a path does not resolve. -/
theorem bytesAt?_eq_none (h : ∀ inode, fs.resolve path ≠ .ok inode) : fs.bytesAt? path = none := by
  unfold bytesAt?
  split
  · next inode hpath => exact absurd hpath (h inode)
  · rfl

/-- Writing to another node than that of the file leaves what reading its paths gives. -/
theorem WritesTo.bytesAt?_eq (hfs : fs.WellFormed) (h : WritesTo target fs other)
    (hform : IsAbsoluteForm fs path file upper) (hfile : fs.resolve file = .ok source)
    (hplain : fs.isDirectoryNode source = false) (hne : source ≠ target) :
    other.bytesAt? path = fs.bytesAt? path := by
  have hresolve : ∀ inode, other.resolve path = .ok inode ↔ fs.resolve path = .ok inode :=
    fun _ ↦ h.resolve_eq_ok_iff hfs hform hfile
  by_cases hpath : ∃ inode, fs.resolve path = .ok inode
  · obtain ⟨inode, hpath⟩ := hpath
    obtain rfl : inode = source := hform.resolve_unique hfs hpath hfile
    simp only [bytesAt?, hpath, (hresolve inode).2 hpath, hplain, h.back.plain hplain,
      h.touches.contents_eq hne hplain]
  · rw [bytesAt?_eq_none (not_exists.1 hpath),
      bytesAt?_eq_none fun inode hinode ↦ hpath ⟨inode, (hresolve inode).1 hinode⟩]

end FileSystem

namespace Migration

open LineMigration.Stream LineMigration.FileSystem

variable {table : Table} {dryRun : Bool} {observer : Observer} {fs : FileSystem} {path : Text}
  {failure : Failure} {result : Result}

/-- A migration that fails leaves what reading its path gives. -/
theorem bytesAt?_of_error (hfs : fs.WellFormed)
    (herror : (migrate table dryRun observer fs path).outcome = .error failure) :
    (migrate table dryRun observer fs path).fileSystem.bytesAt? path = fs.bytesAt? path := by
  rcases writesTo_of_error hfs herror with
    hkept | ⟨file, upper, source, target, hform, hfile, hplain, hne, -, hwrites⟩
  · rw [hkept]
  · exact hwrites.bytesAt?_eq hfs hform hfile hplain hne

/-- A migration that succeeds has found a text at its path and left it edited, or the path did not
resolve, and does not. -/
theorem bytesAt?_of_ok (hfs : fs.WellFormed) (hapart : fs.ScratchApart path)
    (hok : (migrate table false observer fs path).outcome = .ok result) :
    let after := (migrate table false observer fs path).fileSystem
    (fs.bytesAt? path = none ∧ after.bytesAt? path = none) ∨
      ∃ text, fs.bytesAt? path = some (Text.utf8 text) ∧
        after.bytesAt? path = some (Text.utf8 (editedLines table (Text.lines text))) ∧
        result.changes = changesFrom table 0 (Text.lines text) := by
  obtain ⟨file, scratch, source, directory, name, created, written, target, lines, habsolute,
    hscratch, hfile, hsite, hswapped⟩ := swapped_of_ok hfs hok
  obtain ⟨upper, hform⟩ := isAbsoluteForm_of_absolute hfs habsolute
  by_cases hpath : ∃ inode, fs.resolve path = .ok inode
  · obtain ⟨inode, hpath⟩ := hpath
    obtain rfl : inode = source := hform.resolve_unique hfs hpath hfile
    have htook := hswapped.tookPlace hfs hsite habsolute hscratch hfile hform hpath
    obtain ⟨text, htext, rfl, hread, -⟩ := hswapped.reads_of_apart hfs hsite.plain hfile htook
      (hapart file scratch inode habsolute hscratch hpath)
    refine .inr ⟨text, ?_, bytesAt?_of_read? hread, by rw [hswapped.report]⟩
    simp [bytesAt?, hpath, hsite.plain, htext]
  · -- All directories are where they were, so a path that resolves now did so before.
    have htook := hswapped.tookPlace hfs hsite habsolute hscratch hfile
      (isAbsoluteForm_self hfs habsolute) hfile
    have hwrites : WritesTo target fs written :=
      hswapped.filled ▸ (created_of_create hswapped.create).2.writesTo hfs _
    have hsame := hwrites.sameDirectories.trans htook.sameDirectories
    exact .inl ⟨bytesAt?_eq_none (not_exists.1 hpath), bytesAt?_eq_none fun inode hinode ↦ hpath
      (hform.resolve_back hfs hfile hsite.plain htook.wellFormed hsame hinode)⟩

/-- An observer that stops at every change has let a migration succeed that has none to tell. -/
theorem changes_eq_nil_of_refuses (hrefuses : ∀ told change, observer told change ≠ none)
    (hok : (migrate table false observer fs path).outcome = .ok result) : result.changes = [] := by
  rcases migrate_cases table false observer fs path with ⟨_, hrun, -⟩ |
    ⟨file, source, -, -, -, ⟨hdry, -⟩ | ⟨-, scratch, -, hrun⟩⟩
  · rw [hrun] at hok
    cases hok
  · cases hdry
  · rw [hrun] at hok
    have hended := ended_of_replaceThrough table observer fs source file scratch
    generalize replaceThrough table observer fs source file scratch = run at hok hended
    cases hended with
    | uncreated => cases hok
    | unedited => cases hok
    | unflushed => cases hok
    | unswapped => cases hok
    | swapped _ _ hreached =>
      cases hok
      rw [hreached.calls_eq_nil hrefuses]
      rfl

end Migration

end LineMigration
