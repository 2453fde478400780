import LineMigration.FileSystem.View

/-!
# Well-formed file systems

A list of nodes is a file system if the root and the working directory are directories, the
directory above a directory is one, and the entries of a directory have names that differ, that a
path can spell, and that stand for nodes. The lemmas say what this gives for a look-up.

Read `child_eq_ok_iff` first.
-/

namespace LineMigration

/-- What an entry can be called: something without a slash within the limit, and not the dots. -/
def Path.IsEntryName (name : Name) : Prop :=
  name ≠ [] ∧ '/' ∉ name ∧ Path.isDots name = false ∧ (Text.utf8 name).length ≤ nameLimit

/-- The names that are not the dots are those that an entry can have beside them. -/
theorem Path.isDots_eq_false_iff {name : Name} :
    Path.isDots name = false ↔ name ≠ Path.here ∧ name ≠ Path.above := by
  simp [Path.isDots]

instance (name : Name) : Decidable (Path.IsEntryName name) :=
  inferInstanceAs (Decidable (_ ∧ _))

/-- What a node has to be as a part of a file system: the entries of a directory have different
names and stand for nodes, and above it is a directory. -/
def Node.FitsInto (fs : FileSystem) : Node → Prop
  | .directory entries parent =>
    fs.isDirectoryNode parent = true ∧ (entries.map (·.1)).Nodup ∧
      ∀ entry ∈ entries, Path.IsEntryName entry.1 ∧ entry.2 < fs.nodes.length
  | _ => True

instance (fs : FileSystem) : (node : Node) → Decidable (node.FitsInto fs)
  | .directory _ _ => inferInstanceAs (Decidable (_ ∧ _))
  | .file _ => inferInstanceAs (Decidable True)
  | .link _ => inferInstanceAs (Decidable True)
  | .device _ _ => inferInstanceAs (Decidable True)

/-- What is no directory fits everywhere. -/
theorem Node.fitsInto_of_plain {fs : FileSystem} {node : Node} (h : node.isDirectory = false) :
    node.FitsInto fs := by
  cases node with
  | directory => cases h
  | file => trivial
  | link => trivial
  | device => trivial

namespace FileSystem

/-- The root and the working directory are directories, and every node fits. -/
structure WellFormed (fs : FileSystem) : Prop where
  root : fs.isDirectoryNode root = true
  workingDirectory : fs.isDirectoryNode fs.workingDirectory = true
  fits : ∀ node ∈ fs.nodes, node.FitsInto fs

instance (fs : FileSystem) : Decidable fs.WellFormed :=
  decidable_of_iff (fs.isDirectoryNode FileSystem.root = true ∧
      fs.isDirectoryNode fs.workingDirectory = true ∧ ∀ node ∈ fs.nodes, node.FitsInto fs)
    ⟨fun h ↦ ⟨h.1, h.2.1, h.2.2⟩, fun h ↦ ⟨h.root, h.workingDirectory, h.fits⟩⟩

/-- The empty file system is one. -/
example : empty.WellFormed := by decide

variable {fs : FileSystem} {directory inode : Inode} {name : Name}

/-! ## Directories -/

theorem isDirectoryNode_iff :
    fs.isDirectoryNode inode = true ↔
      ∃ entries parent, fs.node? inode = some (.directory entries parent) := by
  unfold isDirectoryNode
  cases fs.node? inode with
  | none => simp
  | some node => cases node <;> simp [Node.isDirectory]

theorem isDirectoryNode_eq_false {node : Node} (h : fs.node? inode = some node)
    (hplain : node.isDirectory = false) : fs.isDirectoryNode inode = false := by
  unfold isDirectoryNode
  rw [h]
  exact hplain

/-- A directory is no link. -/
theorem not_link_of_isDirectoryNode (h : fs.isDirectoryNode inode = true) (text : Text) :
    fs.node? inode ≠ some (.link text) := by
  obtain ⟨entries, parent, hnode⟩ := isDirectoryNode_iff.1 h
  rw [hnode]
  exact fun heq ↦ by cases heq

/-- A number that has a node is one of the numbers of the list. -/
theorem lt_of_node? {node : Node} (h : fs.node? inode = some node) : inode < fs.nodes.length :=
  (List.getElem?_eq_some_iff.1 h).1

theorem lt_of_isDirectoryNode (h : fs.isDirectoryNode inode = true) : inode < fs.nodes.length := by
  obtain ⟨entries, parent, hnode⟩ := isDirectoryNode_iff.1 h
  exact lt_of_node? hnode

/-- What a name stands for in a directory is one of its entries. -/
theorem mem_entries_of_lookup (h : fs.lookup directory name = some inode) :
    (name, inode) ∈ fs.entries directory := by
  obtain ⟨before, after, hentries, -⟩ := List.lookup_eq_some_iff.1 h
  rw [hentries]
  exact List.mem_append_right _ List.mem_cons_self

/-- Only a directory has entries. -/
theorem isDirectoryNode_of_lookup (h : fs.lookup directory name = some inode) :
    fs.isDirectoryNode directory = true := by
  have hmem := mem_entries_of_lookup h
  unfold entries at hmem
  rw [isDirectoryNode_iff]
  split at hmem
  · next entries parent hnode => exact ⟨entries, parent, hnode⟩
  · cases hmem

theorem entries_of_node? {entries : List (Name × Inode)} {parent : Inode}
    (h : fs.node? directory = some (.directory entries parent)) :
    fs.entries directory = entries := by
  simp [FileSystem.entries, h]

theorem parent?_of_node? {entries : List (Name × Inode)} {parent : Inode}
    (h : fs.node? directory = some (.directory entries parent)) :
    fs.parent? directory = some parent := by
  simp [parent?, h]

/-- Among different names, each stands for what it is paired with. -/
theorem lookup_eq_some_of_mem {entries : List (Name × Inode)}
    (hnames : (entries.map (·.1)).Nodup) (h : (name, inode) ∈ entries) :
    entries.lookup name = some inode := by
  induction entries with
  | nil => cases h
  | cons entry rest ih =>
    obtain ⟨found, kept⟩ := entry
    simp only [List.map_cons, List.nodup_cons] at hnames
    rcases List.mem_cons.1 h with heq | hrest
    · cases heq
      simp
    · have hne : name ≠ found := by
        rintro rfl
        exact hnames.1 (List.mem_map.2 ⟨_, hrest, rfl⟩)
      simp [List.lookup_cons, beq_eq_false_iff_ne.2 hne, ih hnames.2 hrest]

namespace WellFormed

variable (hfs : fs.WellFormed)
include hfs

/-- A directory of a well-formed file system fits into it. -/
theorem fitsInto {entries : List (Name × Inode)} {parent : Inode}
    (h : fs.node? directory = some (.directory entries parent)) :
    fs.isDirectoryNode parent = true ∧ (entries.map (·.1)).Nodup ∧
      ∀ entry ∈ entries, Path.IsEntryName entry.1 ∧ entry.2 < fs.nodes.length :=
  hfs.fits _ (List.mem_of_getElem? h)

/-- An entry has a name that a path can spell. -/
theorem isEntryName (h : fs.lookup directory name = some inode) : Path.IsEntryName name := by
  obtain ⟨entries, parent, hnode⟩ := isDirectoryNode_iff.1 (isDirectoryNode_of_lookup h)
  have hmem := mem_entries_of_lookup h
  rw [entries_of_node? hnode] at hmem
  exact ((hfs.fitsInto hnode).2.2 _ hmem).1

/-- An entry stands for a node. -/
theorem lt_of_lookup (h : fs.lookup directory name = some inode) : inode < fs.nodes.length := by
  obtain ⟨entries, parent, hnode⟩ := isDirectoryNode_iff.1 (isDirectoryNode_of_lookup h)
  have hmem := mem_entries_of_lookup h
  rw [entries_of_node? hnode] at hmem
  exact ((hfs.fitsInto hnode).2.2 _ hmem).2

/-- The directory above a directory is one. -/
theorem isDirectoryNode_parent (h : fs.parent? directory = some inode) :
    fs.isDirectoryNode inode = true := by
  unfold parent? at h
  split at h
  · next entries parent hnode =>
    cases h
    exact (hfs.fitsInto hnode).1
  · cases h

/-- As names differ, an entry is what its name stands for. -/
theorem lookup_of_mem (h : (name, inode) ∈ fs.entries directory) :
    fs.lookup directory name = some inode := by
  unfold entries at h
  split at h
  · next entries parent hnode =>
    rw [lookup, entries_of_node? hnode]
    exact lookup_eq_some_of_mem (hfs.fitsInto hnode).2.1 h
  · cases h

/-- A name leads from a directory to the directory itself, to the one above, or to an entry. -/
theorem child_eq_ok_iff :
    fs.child directory name = .ok inode ↔
      fs.isDirectoryNode directory = true ∧ name = Path.here ∧ inode = directory ∨
      name = Path.above ∧ fs.parent? directory = some inode ∨
      fs.lookup directory name = some inode := by
  constructor
  · intro h
    unfold child at h
    split at h
    · next entries parent hnode =>
      split at h
      · next hhere =>
        cases h
        exact Or.inl ⟨isDirectoryNode_iff.2 ⟨_, _, hnode⟩, hhere, rfl⟩
      split at h
      · next habove =>
        cases h
        exact Or.inr (Or.inl ⟨habove, parent?_of_node? hnode⟩)
      split at h
      · cases h
      split at h
      · next hlookup =>
        cases h
        exact Or.inr (Or.inr (by rwa [lookup, entries_of_node? hnode]))
      · cases h
    · cases h
  · rintro (⟨hdirectory, rfl, rfl⟩ | ⟨rfl, hparent⟩ | hlookup)
    · obtain ⟨entries, parent, hnode⟩ := isDirectoryNode_iff.1 hdirectory
      simp [child, hnode]
    · unfold parent? at hparent
      split at hparent
      · next entries parent hnode =>
        cases hparent
        simp [child, hnode, Path.here, Path.above]
      · cases hparent
    · obtain ⟨entries, parent, hnode⟩ := isDirectoryNode_iff.1 (isDirectoryNode_of_lookup hlookup)
      obtain ⟨-, -, hdots, hlength⟩ := hfs.isEntryName hlookup
      obtain ⟨hhere, habove⟩ := Path.isDots_eq_false_iff.1 hdots
      rw [lookup, entries_of_node? hnode] at hlookup
      simp [child, hnode, hhere, habove, Nat.not_lt.2 hlength, hlookup]

theorem child_of_lookup (h : fs.lookup directory name = some inode) :
    fs.child directory name = .ok inode :=
  hfs.child_eq_ok_iff.2 (Or.inr (Or.inr h))

/-- Names other than the dots lead to entries only. -/
theorem lookup_of_child (hdots : Path.isDots name = false)
    (h : fs.child directory name = .ok inode) : fs.lookup directory name = some inode := by
  obtain ⟨hhere, habove⟩ := Path.isDots_eq_false_iff.1 hdots
  rcases hfs.child_eq_ok_iff.1 h with ⟨-, h, -⟩ | ⟨h, -⟩ | hlookup
  · exact absurd h hhere
  · exact absurd h habove
  · exact hlookup

/-- What a name leads to is a node of the list. -/
theorem lt_of_child (h : fs.child directory name = .ok inode) : inode < fs.nodes.length := by
  rcases hfs.child_eq_ok_iff.1 h with ⟨hdirectory, -, rfl⟩ | ⟨-, hparent⟩ | hlookup
  · exact lt_of_isDirectoryNode hdirectory
  · exact lt_of_isDirectoryNode (hfs.isDirectoryNode_parent hparent)
  · exact hfs.lt_of_lookup hlookup

/-- A symbolic link is met exactly where a name leads to one. -/
theorem linkAt?_eq_some_iff {target : Text} :
    fs.linkAt? directory name = some target ↔
      ∃ inode, fs.child directory name = .ok inode ∧ fs.node? inode = some (.link target) := by
  have hlink : fs.linkAt? directory name = some target ↔
      ∃ inode, fs.lookup directory name = some inode ∧ fs.node? inode = some (.link target) := by
    unfold linkAt?
    cases fs.lookup directory name with
    | none => simp
    | some inode =>
      simp only [Option.bind_some]
      split
      · next found hfound => simp [hfound]
      · next hother => simpa using hother target
  rw [hlink]
  constructor
  · rintro ⟨inode, hlookup, hnode⟩
    exact ⟨inode, hfs.child_of_lookup hlookup, hnode⟩
  · rintro ⟨inode, hchild, hnode⟩
    -- The dots lead to directories, so only an entry can lead to a link.
    have hnot : fs.isDirectoryNode inode ≠ true := by
      rw [Ne, isDirectoryNode_iff, hnode]
      simp
    rcases hfs.child_eq_ok_iff.1 hchild with ⟨hdirectory, -, rfl⟩ | ⟨-, hparent⟩ | hlookup
    · exact absurd hdirectory hnot
    · exact absurd (hfs.isDirectoryNode_parent hparent) hnot
    · exact ⟨inode, hlookup, hnode⟩

end WellFormed

end FileSystem

end LineMigration
