import LineMigration.Proofs.FileSystem.Rename

/-!
# The way up to the root

The names of the working directory are found by climbing: from a directory to the one above it, and
there to the first entry that stands for it. `ClimbsAs fs other` says that in `other` nothing on
these ways has changed, so every path with an absolute form keeps it (`ClimbsAs.absolute`). What is
done to names of plain nodes, and to what they hold, changes nothing there.
-/

namespace LineMigration.FileSystem

open LineMigration.Path

variable {fs other : FileSystem} {directory inode child moved : Inode} {name oldName : Name}
  {names below : List Name} {fuel more : Nat} {path file : Text} {bytes : Bytes}

/-- Directories have the same directory above them, and there the same first entry. -/
structure ClimbsAs (fs other : FileSystem) : Prop where
  workingDirectory : other.workingDirectory = fs.workingDirectory
  length : fs.nodes.length ≤ other.nodes.length
  directory : ∀ inode, other.isDirectoryNode inode = fs.isDirectoryNode inode
  parent : ∀ inode, other.parent? inode = fs.parent? inode
  found : ∀ directory inode, fs.isDirectoryNode inode = true →
    (other.entries directory).find? (·.2 = inode) = (fs.entries directory).find? (·.2 = inode)

namespace ClimbsAs

theorem trans {third : FileSystem} (h : ClimbsAs fs other) (hnext : ClimbsAs other third) :
    ClimbsAs fs third :=
  ⟨hnext.workingDirectory.trans h.workingDirectory, Nat.le_trans h.length hnext.length,
    fun inode ↦ (hnext.directory inode).trans (h.directory inode),
    fun inode ↦ (hnext.parent inode).trans (h.parent inode), fun directory inode hinode ↦
      (hnext.found directory inode ((h.directory inode).trans hinode)).trans
        (h.found directory inode hinode)⟩

/-- A climb that comes to the root finds the same names, and more steps do no harm. -/
theorem climb (h : ClimbsAs fs other) (hfs : fs.WellFormed)
    (hdirectory : fs.isDirectoryNode directory = true) (hle : fuel ≤ more)
    (hclimb : fs.climb fuel directory below = .ok names) :
    other.climb more directory below = .ok names := by
  induction fuel generalizing directory below more with
  | zero => cases hclimb
  | succ fuel ih =>
    obtain ⟨more, rfl⟩ : ∃ fewer, more = fewer + 1 := ⟨more - 1, by omega⟩
    simp only [FileSystem.climb] at hclimb ⊢
    by_cases hroot : directory = root
    · rw [if_pos hroot] at hclimb ⊢
      exact hclimb
    rw [if_neg hroot] at hclimb ⊢
    rw [h.parent]
    cases hparent : fs.parent? directory with
    | none =>
      rw [hparent] at hclimb
      cases hclimb
    | some parent =>
      rw [hparent] at hclimb
      simp only [h.found parent directory hdirectory] at hclimb ⊢
      split at hclimb
      · cases hclimb
      · exact ih (hfs.isDirectoryNode_parent hparent) (by omega) hclimb

/-- A path that has an absolute form keeps it. -/
theorem absolute (h : ClimbsAs fs other) (hfs : fs.WellFormed)
    (habsolute : fs.absolute path = .ok file) : other.absolute path = .ok file := by
  unfold FileSystem.absolute Path.absolute at habsolute ⊢
  split at habsolute
  · cases habsolute
  next hne =>
  rw [if_neg hne]
  split at habsolute
  · next hstart =>
    rw [if_pos hstart]
    exact habsolute
  next hstart =>
  rw [if_neg hstart]
  cases hworking : fs.workingNames with
  | error cause =>
    rw [hworking] at habsolute
    cases habsolute
  | ok names =>
    have hother : other.workingNames = .ok names := by
      unfold workingNames at hworking ⊢
      rw [h.workingDirectory]
      exact h.climb hfs hfs.workingDirectory h.length hworking
    rw [hother, ← hworking]
    exact habsolute

end ClimbsAs

/-! ## What does not change the way -/

/-- Content is not looked at. -/
theorem Same.climbsAs (h : Same Node.outline fs other) : ClimbsAs fs other := by
  refine ⟨h.workingDirectory, Nat.le_of_eq h.length.symm, fun inode ↦ ?_,
    h.parent?_eq_of_outline, fun directory inode _ ↦ by rw [h.entries_eq]⟩
  exact Bool.eq_iff_iff.2 ⟨h.symm.isDirectoryNode, h.isDirectoryNode⟩

/-- One more file. -/
theorem climbsAs_add_file : ClimbsAs fs (fs.add (.file bytes)).1 :=
  ⟨rfl, by rw [length_add]; exact Nat.le_succ _, fun _ ↦ isDirectoryNode_add_file,
    fun _ ↦ parent?_add_file, fun _ _ _ ↦ by rw [entries_add_file]⟩

/-- Setting a name leaves the first entry for another node than those of the name. -/
theorem find?_setEntry {entries : List (Name × Inode)} (hnew : inode ≠ child)
    (hold : entries.lookup name ≠ some child) :
    (setEntry name inode entries).find? (·.2 = child) = entries.find? (·.2 = child) := by
  induction entries with
  | nil => simp [setEntry, hnew]
  | cons first rest ih =>
    obtain ⟨found, kept⟩ := first
    simp only [setEntry]
    by_cases heq : found = name
    · subst heq
      have hkept : kept ≠ child := by simpa using hold
      simp [hnew, hkept]
    · rw [List.lookup_cons, beq_eq_false_iff_ne.2 (Ne.symm heq)] at hold
      rw [if_neg heq, List.find?_cons, List.find?_cons, ih hold]

/-- Taking a name away leaves the first entry for another node than that of the name. -/
theorem find?_eraseEntry {entries : List (Name × Inode)}
    (hold : ∀ entry ∈ entries, entry.1 = name → entry.2 ≠ child) :
    (eraseEntry name entries).find? (·.2 = child) = entries.find? (·.2 = child) := by
  induction entries with
  | nil => rfl
  | cons first rest ih =>
    have hrest := ih fun entry hentry ↦ hold entry (List.mem_cons_of_mem _ hentry)
    by_cases heq : first.1 = name
    · have herase : eraseEntry name (first :: rest) = eraseEntry name rest := by
        simp [eraseEntry, heq]
      rw [herase, hrest, List.find?_cons_of_neg (by simp [hold first List.mem_cons_self heq])]
    · have herase : eraseEntry name (first :: rest) = first :: eraseEntry name rest := by
        simp [eraseEntry, heq]
      rw [herase, List.find?_cons, List.find?_cons, hrest]

/-- A name that stands for no directory is given to a plain node. -/
theorem climbsAs_setName (hdirectory : fs.isDirectoryNode directory = true)
    (hplain : fs.isDirectoryNode inode = false)
    (hold : ∀ old, fs.lookup directory name = some old → fs.isDirectoryNode old = false) :
    ClimbsAs fs (fs.setName directory name inode) := by
  have hfaces := sameFaces_setName fs directory name inode
  refine ⟨rfl, Nat.le_of_eq hfaces.length.symm, hfaces.isDirectoryNode_eq, hfaces.parent?_eq,
    fun asked child hchild ↦ ?_⟩
  rw [setName, entries_mapEntries _ hdirectory]
  split
  · next heq =>
    rw [heq]
    refine find?_setEntry ?_ fun hlookup ↦ ?_
    · rintro rfl
      rw [hplain] at hchild
      cases hchild
    · rw [hold child hlookup] at hchild
      cases hchild
  · rfl

/-- A name that stands for no directory is taken away. -/
theorem climbsAs_clearName (hfs : fs.WellFormed) (hdirectory : fs.isDirectoryNode directory = true)
    (hold : ∀ old, fs.lookup directory name = some old → fs.isDirectoryNode old = false) :
    ClimbsAs fs (fs.clearName directory name) := by
  have hfaces := sameFaces_clearName fs directory name
  refine ⟨rfl, Nat.le_of_eq hfaces.length.symm, hfaces.isDirectoryNode_eq, hfaces.parent?_eq,
    fun asked child hchild ↦ ?_⟩
  rw [clearName, entries_mapEntries _ hdirectory]
  split
  · next heq =>
    rw [heq]
    refine find?_eraseEntry ?_
    rintro ⟨found, kept⟩ hentry rfl rfl
    rw [hold kept (hfs.lookup_of_mem hentry)] at hchild
    cases hchild
  · rfl

/-- A plain node is moved over another within a directory. -/
theorem climbsAs_relocate (hfs : fs.WellFormed)
    (hmoved : fs.lookup directory oldName = some moved)
    (hplain : fs.isDirectoryNode moved = false) (hname : IsEntryName name)
    (hvictim : ∀ victim, fs.lookup directory name = some victim →
      fs.isDirectoryNode victim = false) :
    ClimbsAs fs (fs.relocate (directory, oldName) (directory, name) moved) := by
  have hdirectory := isDirectoryNode_of_lookup hmoved
  have hset := climbsAs_setName hdirectory hplain hvictim
  rw [relocate_eq hplain]
  refine hset.trans (climbsAs_clearName (hfs.setName hname (hfs.lt_of_lookup hmoved)) ?_ ?_)
  · rwa [hset.directory]
  · intro old hold
    rw [lookup_setName hdirectory] at hold
    -- What the old name stands for is what was moved, also if it was given to the new name.
    split at hold
    · cases hold
      rwa [hset.directory]
    · cases hmoved.symm.trans hold
      rwa [hset.directory]

/-- Creating changes no way up. -/
theorem Created.climbsAs {created : FileSystem} {target : Inode}
    (h : Created fs path created target) : ClimbsAs fs created := by
  cases h with
  | emptied =>
    show ClimbsAs fs (fs.modify target .truncated)
    exact (sameOutline_truncate fs target).climbsAs
  | @new last lastName _ hdirectory _ hnone =>
    have hadded : ClimbsAs fs (fs.add (.file [])).1 := climbsAs_add_file
    refine hadded.trans (climbsAs_setName ?_ ?_ ?_)
    · rwa [hadded.directory]
    · rw [hadded.directory, isDirectoryNode, node?_length]
    · intro old hold
      rw [lookup_add_file, hnone] at hold
      cases hold

/-- Nor does writing to what was created. -/
theorem Created.climbsAs_append {created : FileSystem} {target : Inode}
    (h : Created fs path created target) (more : Bytes) :
    ClimbsAs fs (created.append target more) :=
  h.climbsAs.trans (sameOutline_append created target more).climbsAs

end LineMigration.FileSystem
