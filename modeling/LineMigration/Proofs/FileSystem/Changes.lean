import Mathlib.Tactic.Common
import LineMigration.Proofs.FileSystem.Leads

/-!
# What changes leave alone

Two kinds of change make up every operation. A change of content keeps the outline of all nodes:
every name, every directory and every link stays (`SameOutline`). A change of a name keeps every
node but for the entries of one directory (`lookup_setName`, `lookup_clearName`). Both keep a file
system well formed.

What a name shows is the number it stands for and the node without the entries of a directory,
which are names of their own; two trees are the same where all names show the same.
-/

namespace LineMigration

/-- The node as a walk sees it: without content. -/
def Node.outline : Node → Node
  | .file _ => .file []
  | .device _ _ => .file []
  | node => node

/-- The node as its name shows it: without the entries of a directory. -/
def Node.face : Node → Node
  | .directory _ parent => .directory [] parent
  | node => node

namespace FileSystem

variable {fs other : FileSystem} {directory inode asked : Inode} {name : Name}

/-- What a name of a directory shows. -/
def shown (fs : FileSystem) (directory : Inode) (name : Name) : Option (Inode × Node) :=
  (fs.lookup directory name).bind fun inode ↦ (fs.node? inode).map fun node ↦ (inode, node.face)

/-- What the last name of a path shows, a link at the end not followed. -/
def shownAt? (fs : FileSystem) (path : Text) : Option (Inode × Node) :=
  (fs.nameOf? path).bind fun (directory, name) ↦ fs.shown directory name

theorem node?_modify (change : Node → Node) :
    (fs.modify inode change).node? asked =
      if asked = inode then (fs.node? asked).map change else fs.node? asked := by
  by_cases h : asked = inode
  · simp [h]
  · rw [if_neg h, node?_modify_of_ne change (Ne.symm h)]

@[simp] theorem length_modify (change : Node → Node) :
    (fs.modify inode change).nodes.length = fs.nodes.length := by
  simp [modify]

@[simp] theorem workingDirectory_modify (change : Node → Node) :
    (fs.modify inode change).workingDirectory = fs.workingDirectory := rfl

/-- A file system is well formed exactly if its directories fit. -/
theorem wellFormed_iff :
    fs.WellFormed ↔ fs.isDirectoryNode root = true ∧
      fs.isDirectoryNode fs.workingDirectory = true ∧
      ∀ directory entries parent, fs.node? directory = some (.directory entries parent) →
        (Node.directory entries parent).FitsInto fs := by
  constructor
  · intro hfs
    exact ⟨hfs.root, hfs.workingDirectory, fun _ _ _ hnode ↦ hfs.fitsInto hnode⟩
  · rintro ⟨hroot, hworking, hfits⟩
    refine ⟨hroot, hworking, ?_⟩
    intro node hmem
    obtain ⟨inode, hinode⟩ := List.mem_iff_getElem?.1 hmem
    cases node with
    | directory entries parent => exact hfits inode entries parent hinode
    | _ => trivial

/-- Two file systems with the same number of nodes, which look the same under a view. -/
structure Same (view : Node → Node) (fs other : FileSystem) : Prop where
  workingDirectory : other.workingDirectory = fs.workingDirectory
  length : other.nodes.length = fs.nodes.length
  view : ∀ inode, (other.node? inode).map view = (fs.node? inode).map view

namespace Same

variable {view : Node → Node}

theorem symm (h : Same view fs other) : Same view other fs :=
  ⟨h.workingDirectory.symm, h.length.symm, fun inode ↦ (h.view inode).symm⟩

theorem trans {third : FileSystem} (h : Same view fs other) (hnext : Same view other third) :
    Same view fs third :=
  ⟨hnext.workingDirectory.trans h.workingDirectory, hnext.length.trans h.length,
    fun inode ↦ (hnext.view inode).trans (h.view inode)⟩

/-- A change that keeps what is seen of a node keeps what is seen of all. -/
theorem modify {change : Node → Node} (hchange : ∀ node, view (change node) = view node)
    (fs : FileSystem) (inode : Inode) : Same view fs (fs.modify inode change) := by
  refine ⟨rfl, length_modify change, ?_⟩
  intro asked
  rw [node?_modify]
  split
  · rw [Option.map_map]
    congr 1
    exact funext hchange
  · rfl

end Same

/-! ## Content -/

theorem outline_extended (bytes : Bytes) (node : Node) :
    (node.extended bytes).outline = node.outline := by
  cases node <;> rfl

theorem outline_truncated (node : Node) : node.truncated.outline = node.outline := by
  cases node <;> rfl

theorem sameOutline_append (fs : FileSystem) (inode : Inode) (bytes : Bytes) :
    Same Node.outline fs (fs.append inode bytes) :=
  .modify (outline_extended bytes) fs inode

theorem sameOutline_truncate (fs : FileSystem) (inode : Inode) :
    Same Node.outline fs (fs.modify inode Node.truncated) :=
  .modify outline_truncated fs inode

namespace Same

/-- Directories stay as they are. -/
theorem node?_directory (h : Same Node.outline fs other) {entries : List (Name × Inode)}
    {parent : Inode} (hnode : fs.node? inode = some (.directory entries parent)) :
    other.node? inode = some (.directory entries parent) := by
  have houtline := h.view inode
  rw [hnode] at houtline
  cases hother : other.node? inode with
  | none => simp [hother] at houtline
  | some node => cases node <;> simp_all [Node.outline]

/-- Links stay as they are. -/
theorem node?_link (h : Same Node.outline fs other) {target : Text}
    (hnode : fs.node? inode = some (.link target)) : other.node? inode = some (.link target) := by
  have houtline := h.view inode
  rw [hnode] at houtline
  cases hother : other.node? inode with
  | none => simp [hother] at houtline
  | some node => cases node <;> simp_all [Node.outline]

theorem isDirectoryNode (h : Same Node.outline fs other)
    (hinode : fs.isDirectoryNode inode = true) : other.isDirectoryNode inode = true := by
  obtain ⟨entries, parent, hnode⟩ := isDirectoryNode_iff.1 hinode
  exact isDirectoryNode_iff.2 ⟨entries, parent, h.node?_directory hnode⟩

theorem entries_eq (h : Same Node.outline fs other) (directory : Inode) :
    other.entries directory = fs.entries directory := by
  have hview := h.view directory
  simp only [entries]
  cases hnode : fs.node? directory with
  | none =>
    cases hother : other.node? directory with
    | none => rfl
    | some node => simp [hnode, hother] at hview
  | some node =>
    cases hother : other.node? directory with
    | none => simp [hnode, hother] at hview
    | some found =>
      rw [hnode, hother] at hview
      cases node <;> cases found <;> simp_all [Node.outline]

/-- Directories have the same directory above them. -/
theorem parent?_eq_of_outline (h : Same Node.outline fs other) (directory : Inode) :
    other.parent? directory = fs.parent? directory := by
  have hparent : ∀ {one another : FileSystem} {parent : Inode}, Same Node.outline one another →
      one.parent? directory = some parent → another.parent? directory = some parent := by
    intro one another parent hsame hone
    unfold FileSystem.parent? at hone
    split at hone
    · next entries above hnode =>
      cases hone
      exact parent?_of_node? (hsame.node?_directory hnode)
    · cases hone
  cases hfs : fs.parent? directory with
  | some parent => exact hparent h hfs
  | none =>
    cases hother : other.parent? directory with
    | none => rfl
    | some parent =>
      rw [hparent h.symm hother] at hfs
      cases hfs

/-- Names stand for what they stood for. -/
theorem lookup_eq (h : Same Node.outline fs other) (directory : Inode) (name : Name) :
    other.lookup directory name = fs.lookup directory name := by
  rw [lookup, lookup, h.entries_eq]

theorem child (h : Same Node.outline fs other) (hchild : fs.child directory name = .ok inode) :
    other.child directory name = .ok inode := by
  obtain ⟨entries, parent, hnode⟩ := isDirectoryNode_iff.1 (isDirectoryNode_of_child hchild)
  simp only [FileSystem.child, hnode] at hchild
  simp only [FileSystem.child, h.node?_directory hnode]
  exact hchild

/-- Content does not matter for being well formed. -/
theorem wellFormed (h : Same Node.outline fs other) (hfs : fs.WellFormed) :
    other.WellFormed := by
  refine wellFormed_iff.2 ⟨h.isDirectoryNode hfs.root, ?_, ?_⟩
  · rw [h.workingDirectory]
    exact h.isDirectoryNode hfs.workingDirectory
  · intro directory entries parent hnode
    obtain ⟨hparent, hnames, hentries⟩ := hfs.fitsInto (h.symm.node?_directory hnode)
    exact ⟨h.isDirectoryNode hparent, hnames, fun entry hmem ↦
      ⟨(hentries entry hmem).1, h.length ▸ (hentries entry hmem).2⟩⟩

end Same

/-! ## Names -/

theorem sameFaces_setName (fs : FileSystem) (directory : Inode) (name : Name) (inode : Inode) :
    Same Node.face fs (fs.setName directory name inode) :=
  .modify (fun node ↦ by cases node <;> rfl) fs directory

theorem sameFaces_clearName (fs : FileSystem) (directory : Inode) (name : Name) :
    Same Node.face fs (fs.clearName directory name) :=
  .modify (fun node ↦ by cases node <;> rfl) fs directory

/-- A directory has the same directory above it and is still one. -/
theorem Same.parent?_eq (h : Same Node.face fs other) (inode : Inode) :
    other.parent? inode = fs.parent? inode := by
  have hview := h.view inode
  simp only [parent?]
  cases hnode : fs.node? inode with
  | none =>
    cases hother : other.node? inode with
    | none => rfl
    | some node => simp [hnode, hother] at hview
  | some node =>
    cases hother : other.node? inode with
    | none => simp [hnode, hother] at hview
    | some found =>
      rw [hnode, hother] at hview
      cases node <;> cases found <;> simp_all [Node.face]

/-- What looks the same and is no directory is the same node. -/
theorem node?_of_face {node : Node}
    (hface : (other.node? inode).map Node.face = (fs.node? inode).map Node.face)
    (hnode : fs.node? inode = some node) (hplain : node.isDirectory = false) :
    other.node? inode = some node := by
  rw [hnode] at hface
  cases hother : other.node? inode with
  | none => simp [hother] at hface
  | some found =>
    rw [hother] at hface
    cases node <;> cases found <;> simp_all [Node.face, Node.isDirectory]

theorem node?_eq_of_face
    (hface : (other.node? inode).map Node.face = (fs.node? inode).map Node.face)
    (hplain : fs.isDirectoryNode inode = false) : other.node? inode = fs.node? inode := by
  cases hnode : fs.node? inode with
  | some node =>
    unfold isDirectoryNode at hplain
    rw [hnode] at hplain
    exact node?_of_face hface hnode hplain
  | none =>
    rw [hnode] at hface
    simpa using hface

theorem Same.node?_plain (h : Same Node.face fs other) {node : Node}
    (hnode : fs.node? inode = some node) (hplain : node.isDirectory = false) :
    other.node? inode = some node :=
  node?_of_face (h.view inode) hnode hplain

theorem Same.isDirectoryNode_eq (h : Same Node.face fs other) (inode : Inode) :
    other.isDirectoryNode inode = fs.isDirectoryNode inode := by
  have hview := h.view inode
  unfold FileSystem.isDirectoryNode
  cases hnode : fs.node? inode with
  | none =>
    cases hother : other.node? inode with
    | none => rfl
    | some node => simp [hnode, hother] at hview
  | some node =>
    cases hother : other.node? inode with
    | none => simp [hnode, hother] at hview
    | some found =>
      rw [hnode, hother] at hview
      cases node <;> cases found <;> simp_all [Node.face, Node.isDirectory]

/-- The entries of one directory change, and those of the others stay. -/
theorem entries_mapEntries (change : List (Name × Inode) → List (Name × Inode))
    (hdirectory : fs.isDirectoryNode directory = true) :
    (fs.modify directory (mapEntries change)).entries asked =
      if asked = directory then change (fs.entries directory) else fs.entries asked := by
  obtain ⟨entries, parent, hnode⟩ := isDirectoryNode_iff.1 hdirectory
  by_cases h : asked = directory
  · subst h
    simp [FileSystem.entries, hnode, mapEntries]
  · simp [FileSystem.entries, node?_modify, h]

/-- A name that is set stands for what it was set to, and the others for what they stood for. -/
theorem lookup_setName (hdirectory : fs.isDirectoryNode directory = true) (askedName : Name) :
    (fs.setName directory name inode).lookup asked askedName =
      if asked = directory ∧ askedName = name then some inode else fs.lookup asked askedName := by
  rw [lookup, setName, entries_mapEntries _ hdirectory]
  by_cases h : asked = directory
  · subst h
    by_cases hname : askedName = name
    · simp [hname]
    · simp [hname, lookup_setEntry_of_ne hname, lookup]
  · simp [h, lookup]

/-- A name that is cleared stands for nothing, and the others for what they stood for. -/
theorem lookup_clearName (hdirectory : fs.isDirectoryNode directory = true) (askedName : Name) :
    (fs.clearName directory name).lookup asked askedName =
      if asked = directory ∧ askedName = name then none else fs.lookup asked askedName := by
  rw [lookup, clearName, entries_mapEntries _ hdirectory]
  by_cases h : asked = directory
  · subst h
    by_cases hname : askedName = name
    · simp [hname]
    · simp [hname, lookup_eraseEntry_of_ne hname, lookup]
  · simp [h, lookup]

/-! ## Staying well formed -/

theorem mem_setEntry {entries : List (Name × Inode)} {entry : Name × Inode}
    (h : entry ∈ setEntry name inode entries) : entry = (name, inode) ∨ entry ∈ entries := by
  induction entries with
  | nil => exact Or.inl (List.mem_singleton.1 h)
  | cons first rest ih =>
    simp only [setEntry] at h
    split at h
    · rcases List.mem_cons.1 h with h | h
      · exact Or.inl h
      · exact Or.inr (List.mem_cons_of_mem _ h)
    · rcases List.mem_cons.1 h with h | h
      · exact Or.inr (h ▸ List.mem_cons_self)
      · exact (ih h).imp id (List.mem_cons_of_mem _)

/-- Setting a name keeps the names of a directory different. -/
theorem nodup_setEntry {entries : List (Name × Inode)} (h : (entries.map (·.1)).Nodup) :
    ((setEntry name inode entries).map (·.1)).Nodup := by
  induction entries with
  | nil => simp [setEntry]
  | cons first rest ih =>
    simp only [List.map_cons, List.nodup_cons] at h
    simp only [setEntry]
    split
    · next heq => simpa [← heq] using h
    · next hne =>
      simp only [List.map_cons, List.nodup_cons]
      refine ⟨?_, ih h.2⟩
      intro hmem
      -- The only name that may be new in the rest is the one that is set.
      obtain ⟨entry, hentry, heq⟩ := List.mem_map.1 hmem
      rcases mem_setEntry hentry with rfl | hrest
      · exact hne heq.symm
      · exact h.1 (List.mem_map.2 ⟨entry, hrest, heq⟩)

theorem nodup_eraseEntry {entries : List (Name × Inode)} (h : (entries.map (·.1)).Nodup) :
    ((eraseEntry name entries).map (·.1)).Nodup :=
  h.sublist (List.filter_sublist.map _)

/-- What fits fits as well where the directories still are ones and there are no fewer nodes. -/
theorem fitsInto_mono {node : Node} (h : node.FitsInto fs)
    (hdirectories : ∀ asked, fs.isDirectoryNode asked = true → other.isDirectoryNode asked = true)
    (hlength : fs.nodes.length ≤ other.nodes.length) : node.FitsInto other := by
  cases node with
  | directory entries parent =>
    obtain ⟨hparent, hnames, hentries⟩ := h
    exact ⟨hdirectories parent hparent, hnames, fun entry hentry ↦
      ⟨(hentries entry hentry).1, Nat.lt_of_lt_of_le (hentries entry hentry).2 hlength⟩⟩
  | file => trivial
  | link => trivial
  | device => trivial

/-- A change that makes no directory and unmakes none. -/
theorem isDirectoryNode_modify {change : Node → Node}
    (hkind : ∀ node, (change node).isDirectory = node.isDirectory) :
    (fs.modify inode change).isDirectoryNode asked = fs.isDirectoryNode asked := by
  unfold isDirectoryNode
  rw [node?_modify]
  by_cases h : asked = inode
  · rw [if_pos h]
    cases fs.node? asked with
    | none => rfl
    | some node => exact hkind node
  · rw [if_neg h]

namespace WellFormed

/-- A file system stays well formed when a node changes to one of its kind that fits if it did. -/
theorem modify (hfs : fs.WellFormed) {change : Node → Node}
    (hkind : ∀ node, (change node).isDirectory = node.isDirectory)
    (hfits : ∀ node, node.FitsInto fs → (change node).FitsInto fs) :
    (fs.modify inode change).WellFormed := by
  refine wellFormed_iff.2 ⟨?_, ?_, ?_⟩
  · rw [isDirectoryNode_modify hkind]
    exact hfs.root
  · rw [isDirectoryNode_modify hkind]
    exact hfs.workingDirectory
  · intro asked entries parent hnode
    have hold : (Node.directory entries parent).FitsInto fs := by
      rw [node?_modify] at hnode
      split at hnode
      · obtain ⟨node, hnode, hchanged⟩ := Option.map_eq_some_iff.1 hnode
        exact hchanged ▸ hfits node (hfs.fits node (List.mem_of_getElem? hnode))
      · exact hfs.fitsInto hnode
    refine fitsInto_mono hold (fun asked hasked ↦ ?_) (Nat.le_of_eq (length_modify change).symm)
    rw [isDirectoryNode_modify hkind]
    exact hasked

/-- So it does when the entries of a directory change to different names that fit. -/
theorem mapEntries (hfs : fs.WellFormed)
    {change : List (Name × Inode) → List (Name × Inode)}
    (hnodup : ∀ entries, (entries.map (·.1)).Nodup → ((change entries).map (·.1)).Nodup)
    (hmem : ∀ entries, ∀ entry ∈ change entries,
      entry ∈ entries ∨ Path.IsEntryName entry.1 ∧ entry.2 < fs.nodes.length) :
    (fs.modify directory (FileSystem.mapEntries change)).WellFormed := by
  refine hfs.modify (fun node ↦ by cases node <;> rfl) ?_
  intro node hnode
  cases node with
  | directory entries parent =>
    obtain ⟨hparent, hnames, hentries⟩ := hnode
    refine ⟨hparent, hnodup entries hnames, ?_⟩
    intro entry hentry
    rcases hmem entries entry hentry with hkept | hnew
    · exact hentries entry hkept
    · exact hnew
  | file => trivial
  | link => trivial
  | device => trivial

/-- Letting a name stand for a node. -/
theorem setName (hfs : fs.WellFormed) (hname : Path.IsEntryName name)
    (hinode : inode < fs.nodes.length) : (fs.setName directory name inode).WellFormed := by
  refine hfs.mapEntries (fun entries h ↦ nodup_setEntry h) ?_
  intro entries entry hentry
  rcases mem_setEntry hentry with rfl | hkept
  · exact Or.inr ⟨hname, hinode⟩
  · exact Or.inl hkept

/-- Taking a name away. -/
theorem clearName (hfs : fs.WellFormed) : (fs.clearName directory name).WellFormed :=
  hfs.mapEntries (fun _ h ↦ nodup_eraseEntry h) fun _ _ hentry ↦
    Or.inl (List.mem_filter.1 hentry).1

end WellFormed

/-! ## One more file -/

variable {bytes : Bytes}

theorem node?_add (node : Node) :
    (fs.add node).1.node? asked =
      if asked = fs.nodes.length then some node else fs.node? asked := by
  simp only [node?, add]
  split
  · next h => simp [h]
  · next h =>
    -- Numbers below the new one stand for what they stood for, those above for nothing.
    rcases Nat.lt_or_gt_of_ne h with hlt | hgt
    · rw [List.getElem?_append_left hlt]
    · rw [List.getElem?_eq_none (by simp; omega), List.getElem?_eq_none (by omega)]

/-- No number beyond the list has a node. -/
theorem node?_length : fs.node? fs.nodes.length = none := List.getElem?_eq_none (Nat.le_refl _)

/-- A new file is no directory, and the directories stay. -/
theorem isDirectoryNode_add_file :
    (fs.add (.file bytes)).1.isDirectoryNode asked = fs.isDirectoryNode asked := by
  unfold isDirectoryNode
  by_cases h : asked = fs.nodes.length
  · rw [node?_add, if_pos h, h, node?_length]
    rfl
  · rw [node?_add, if_neg h]

theorem entries_add_file : (fs.add (.file bytes)).1.entries asked = fs.entries asked := by
  unfold entries
  by_cases h : asked = fs.nodes.length
  · rw [node?_add, if_pos h, h, node?_length]
  · rw [node?_add, if_neg h]

theorem lookup_add_file (askedName : Name) :
    (fs.add (.file bytes)).1.lookup asked askedName = fs.lookup asked askedName := by
  rw [lookup, lookup, entries_add_file]

theorem parent?_add_file : (fs.add (.file bytes)).1.parent? asked = fs.parent? asked := by
  unfold parent?
  by_cases h : asked = fs.nodes.length
  · rw [node?_add, if_pos h, h, node?_length]
  · rw [node?_add, if_neg h]

@[simp] theorem length_add (node : Node) :
    (fs.add node).1.nodes.length = fs.nodes.length + 1 := by
  simp [add]

/-- Directories are still ones beside a new node. -/
theorem isDirectoryNode_add {node : Node} (h : fs.isDirectoryNode asked = true) :
    (fs.add node).1.isDirectoryNode asked = true := by
  obtain ⟨entries, parent, hnode⟩ := isDirectoryNode_iff.1 h
  refine isDirectoryNode_iff.2 ⟨entries, parent, ?_⟩
  rw [node?_add, if_neg (Nat.ne_of_lt (lt_of_node? hnode))]
  exact hnode

/-- A file system stays well formed with one more node that fits. -/
theorem WellFormed.add (hfs : fs.WellFormed) {node : Node} (hnode : node.FitsInto (fs.add node).1) :
    (fs.add node).1.WellFormed := by
  refine ⟨isDirectoryNode_add hfs.root, isDirectoryNode_add hfs.workingDirectory, ?_⟩
  intro asked hmem
  rcases List.mem_append.1 hmem with hold | hnew
  · exact fitsInto_mono (hfs.fits asked hold) (fun _ ↦ isDirectoryNode_add)
      (by rw [length_add]; exact Nat.le_succ _)
  · rw [List.mem_singleton.1 hnew]
    exact hnode

/-! ## What a change touches -/

/-- Nothing has changed but what the excepted names show. -/
structure UnchangedBut (excepted : Inode → Name → Prop) (fs other : FileSystem) : Prop where
  workingDirectory : other.workingDirectory = fs.workingDirectory
  parent : ∀ inode, other.parent? inode = fs.parent? inode
  shown : ∀ directory name, ¬ excepted directory name →
    other.shown directory name = fs.shown directory name

namespace UnchangedBut

variable {excepted more : Inode → Name → Prop}

theorem trans {third : FileSystem} (h : UnchangedBut excepted fs other)
    (hnext : UnchangedBut more other third) :
    UnchangedBut (fun directory name ↦ excepted directory name ∨ more directory name) fs third :=
  ⟨hnext.workingDirectory.trans h.workingDirectory,
    fun inode ↦ (hnext.parent inode).trans (h.parent inode), fun directory name hneither ↦
      (hnext.shown directory name fun hmore ↦ hneither (Or.inr hmore)).trans
        (h.shown directory name fun hexcepted ↦ hneither (Or.inl hexcepted))⟩

/-- More may be excepted. -/
theorem weaken (h : UnchangedBut excepted fs other)
    (hmore : ∀ directory name, excepted directory name → more directory name) :
    UnchangedBut more fs other :=
  ⟨h.workingDirectory, h.parent, fun directory name hnot ↦
    h.shown directory name fun hexcepted ↦ hnot (hmore directory name hexcepted)⟩

end UnchangedBut

/-- A name shows the same where it stands for the same node and that looks the same. -/
theorem shown_eq_of_lookup (hlookup : other.lookup directory name = fs.lookup directory name)
    (hface : ∀ inode, other.lookup directory name = some inode →
      (other.node? inode).map Node.face = (fs.node? inode).map Node.face) :
    other.shown directory name = fs.shown directory name := by
  unfold shown
  rw [← hlookup]
  cases hinode : other.lookup directory name with
  | none => rfl
  | some inode =>
    simpa [Option.map_map, Function.comp_def] using
      congrArg (Option.map fun node ↦ (inode, node)) (hface inode hinode)

/-- Nothing but the node `target` looks different, and the only new names are names of it. -/
structure TouchesOnly (target : Inode) (fs other : FileSystem) : Prop where
  workingDirectory : other.workingDirectory = fs.workingDirectory
  parent : ∀ inode, other.parent? inode = fs.parent? inode
  face : ∀ inode, inode ≠ target →
    (other.node? inode).map Node.face = (fs.node? inode).map Node.face
  lookup : ∀ directory name, other.lookup directory name = fs.lookup directory name ∨
    fs.lookup directory name = none ∧ other.lookup directory name = some target

namespace TouchesOnly

variable {target : Inode}

theorem trans {third : FileSystem} (h : TouchesOnly target fs other)
    (hnext : TouchesOnly target other third) : TouchesOnly target fs third := by
  refine ⟨hnext.workingDirectory.trans h.workingDirectory,
    fun inode ↦ (hnext.parent inode).trans (h.parent inode),
    fun inode hne ↦ (hnext.face inode hne).trans (h.face inode hne), ?_⟩
  intro directory name
  rcases h.lookup directory name with hkept | ⟨hnone, hsome⟩
  · rw [← hkept]
    exact hnext.lookup directory name
  · rcases hnext.lookup directory name with hkept | ⟨hbad, -⟩
    · exact Or.inr ⟨hnone, hkept.trans hsome⟩
    · rw [hsome] at hbad
      cases hbad

/-- A name that stood for something stands for the same. -/
theorem lookup_of_some (h : TouchesOnly target fs other)
    (hlookup : fs.lookup directory name = some inode) :
    other.lookup directory name = some inode := by
  rcases h.lookup directory name with hkept | ⟨hnone, -⟩
  · rw [hkept, hlookup]
  · rw [hlookup] at hnone
    cases hnone

/-- Other nodes than the target are the same, if they are no directories. -/
theorem node?_plain (h : TouchesOnly target fs other) {node : Node} (hne : inode ≠ target)
    (hnode : fs.node? inode = some node) (hplain : node.isDirectory = false) :
    other.node? inode = some node :=
  node?_of_face (h.face inode hne) hnode hplain

theorem node?_eq (h : TouchesOnly target fs other) (hne : inode ≠ target)
    (hplain : fs.isDirectoryNode inode = false) : other.node? inode = fs.node? inode :=
  node?_eq_of_face (h.face inode hne) hplain

theorem contents_eq (h : TouchesOnly target fs other) (hne : inode ≠ target)
    (hplain : fs.isDirectoryNode inode = false) : other.contents inode = fs.contents inode := by
  unfold contents
  rw [h.node?_eq hne hplain]

/-- A name that does not stand for the target shows what it showed. -/
theorem shown_eq (h : TouchesOnly target fs other)
    (hname : other.lookup directory name ≠ some target) :
    other.shown directory name = fs.shown directory name := by
  have hlookup : other.lookup directory name = fs.lookup directory name :=
    (h.lookup directory name).resolve_right fun hnew ↦ hname hnew.2
  refine shown_eq_of_lookup hlookup fun inode hinode ↦ h.face inode ?_
  rintro rfl
  exact hname hinode

end TouchesOnly

/-- A change of content touches the node that it is made to. -/
theorem touchesOnly_modify {change : Node → Node}
    (hchange : ∀ node, (change node).outline = node.outline) (fs : FileSystem) (inode : Inode) :
    TouchesOnly inode fs (fs.modify inode change) := by
  have hsame : Same Node.outline fs (fs.modify inode change) := .modify hchange fs inode
  refine ⟨rfl, hsame.parent?_eq_of_outline, fun asked hne ↦ ?_,
    fun directory name ↦ Or.inl (hsame.lookup_eq directory name)⟩
  rw [node?_modify, if_neg hne]

end FileSystem

end LineMigration
