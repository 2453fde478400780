import LineMigration.Proofs.FileSystem.Names

/-!
# Patches

A patch says of some names what they come to stand for: nothing, or a file of which they are the
only name. `Patched fs patch after` says that `after` is `fs` with these names changed and no
others, whatever numbers the new files have. Patches of different names can be made one after the
other (`Patched.trans`), in either order as far as can be seen (`Patched.sameTree`): a `SameTree`
has the same directories, the same under every name, and the same names for one node.
-/

namespace LineMigration.FileSystem

variable {fs mid other after : FileSystem} {directory inode : Inode} {name : Name} {path : Text}
  {bytes : Bytes}

/-! ## What a name shows -/

/-- A name stands for the node that it shows. -/
theorem lookup_eq_map_shown (hfs : fs.WellFormed) :
    fs.lookup directory name = (fs.shown directory name).map Prod.fst := by
  unfold shown
  cases hlookup : fs.lookup directory name with
  | none => rfl
  | some inode =>
    have hlt : inode < fs.nodes.length := hfs.lt_of_lookup hlookup
    have hnode : fs.node? inode = some fs.nodes[inode] := List.getElem?_eq_getElem hlt
    simp [hnode]

/-- A node that a name shows in two trees looks the same. -/
theorem face_eq_of_shown (h : other.shown directory name = fs.shown directory name)
    (hlookup : fs.lookup directory name = some inode)
    (hsame : other.lookup directory name = some inode) :
    (other.node? inode).map Node.face = (fs.node? inode).map Node.face := by
  simp only [shown, hlookup, hsame, Option.bind_some] at h
  have hsecond := congrArg (Option.map Prod.snd) h
  simpa [Option.map_map, Function.comp_def] using hsecond

/-! ## Trees that are the same -/

/-- Two names stand for one node. -/
def Share (fs : FileSystem) (first second : Inode × Name) : Prop :=
  ∃ inode, fs.lookup first.1 first.2 = some inode ∧ fs.lookup second.1 second.2 = some inode

/-- The trees are the same but for the numbers of nodes that are no directories: what a name stands
for looks the same, and names stand for one node in both trees or in none. -/
structure SameTree (fs other : FileSystem) : Prop where
  workingDirectory : other.workingDirectory = fs.workingDirectory
  parent : ∀ inode, other.parent? inode = fs.parent? inode
  directory : ∀ directory name inode, fs.isDirectoryNode inode = true →
    (other.lookup directory name = some inode ↔ fs.lookup directory name = some inode)
  face : ∀ directory name,
    (other.shown directory name).map Prod.snd = (fs.shown directory name).map Prod.snd
  share : ∀ first second, other.Share first second ↔ fs.Share first second

/-! ## Patches -/

/-- What a name comes to stand for. -/
inductive Fate where
  | gone
  /-- A file of its own with these bytes. -/
  | file (bytes : Bytes)

/-- What becomes of names; those without a fate stay as they are. -/
def Patch : Type := Inode → Name → Option Fate

namespace Patch

/-- The patch of no name. -/
def empty : Patch := fun _ _ ↦ none

/-- The patch of one name. -/
def single (directory : Inode) (name : Name) (fate : Fate) : Patch := fun asked askedName ↦
  if asked = directory ∧ askedName = name then some fate else none

/-- No name has a fate in both patches. -/
def Disjoint (patch more : Patch) : Prop :=
  ∀ directory name, patch directory name = none ∨ more directory name = none

/-- Both patches together, where the first one goes first. -/
def union (patch more : Patch) : Patch := fun directory name ↦
  (patch directory name).or (more directory name)

variable {patch more : Patch}

@[simp] theorem single_eq_some_iff {asked : Inode} {askedName : Name} {fate found : Fate} :
    single directory name fate asked askedName = some found ↔
      (asked = directory ∧ askedName = name) ∧ fate = found := by
  simp [single]

@[simp] theorem single_eq_none_iff {asked : Inode} {askedName : Name} {fate : Fate} :
    single directory name fate asked askedName = none ↔
      ¬ (asked = directory ∧ askedName = name) := by
  simp [single]

theorem disjoint_single {fate found : Fate} {other : Name} (h : name ≠ other) :
    Disjoint (single directory name fate) (single directory other found) := by
  intro asked askedName
  by_cases hname : askedName = name
  · exact .inr (by simp [hname, h])
  · exact .inl (by simp [hname])

theorem Disjoint.symm (h : Disjoint patch more) : Disjoint more patch :=
  fun directory name ↦ (h directory name).symm

theorem union_comm (h : Disjoint patch more) : union patch more = union more patch := by
  funext directory name
  rcases h directory name with hnone | hnone
  · simp [union, hnone]
  · simp [union, hnone]

theorem union_eq_some_iff (h : Disjoint patch more) {fate : Fate} :
    union patch more directory name = some fate ↔
      patch directory name = some fate ∨ more directory name = some fate := by
  rcases h directory name with hnone | hnone
  · simp [union, hnone]
  · simp [union, hnone]

end Patch

variable {patch more : Patch}

/-- The tree `after` is `fs` with the names of a patch changed, and no others. -/
structure Patched (fs : FileSystem) (patch : Patch) (after : FileSystem) : Prop where
  wellFormed : after.WellFormed
  sameDirectories : SameDirectories fs after
  others : UnchangedBut (fun directory name ↦ patch directory name ≠ none) fs after
  gone : ∀ directory name, patch directory name = some .gone → after.lookup directory name = none
  file : ∀ directory name bytes, patch directory name = some (.file bytes) →
    ∃ inode, SoleFile after directory name inode bytes

namespace Patched

theorem refl (hfs : fs.WellFormed) : Patched fs .empty fs :=
  ⟨hfs, .refl fs, ⟨rfl, fun _ ↦ rfl, fun _ _ _ ↦ rfl⟩, fun _ _ h ↦ (by cases h),
    fun _ _ _ h ↦ (by cases h)⟩

/-- A name without a fate stands for what it stood for. -/
theorem lookup_eq (h : Patched fs patch after) (hfs : fs.WellFormed)
    (hnone : patch directory name = none) :
    after.lookup directory name = fs.lookup directory name := by
  rw [lookup_eq_map_shown hfs, lookup_eq_map_shown h.wellFormed,
    h.others.shown directory name fun hne ↦ hne hnone]

/-- A file under such a name is the file that it was. -/
theorem node?_eq (h : Patched fs patch after) (hfs : fs.WellFormed)
    (hnone : patch directory name = none) (hlookup : fs.lookup directory name = some inode)
    {node : Node} (hnode : fs.node? inode = some node) (hplain : node.isDirectory = false) :
    after.node? inode = some node :=
  node?_of_face (face_eq_of_shown (h.others.shown directory name fun hne ↦ hne hnone) hlookup
    ((h.lookup_eq hfs hnone).trans hlookup)) hnode hplain

/-- A name with a fate that stands for something is the only name of the file that it was given. -/
theorem soleFile_of_lookup (h : Patched fs patch after) (hfate : patch directory name ≠ none)
    (hlookup : after.lookup directory name = some inode) :
    ∃ bytes, patch directory name = some (.file bytes) ∧
      SoleFile after directory name inode bytes := by
  obtain ⟨fate, hpatch⟩ := Option.ne_none_iff_exists'.1 hfate
  cases fate with
  | gone =>
    rw [h.gone directory name hpatch] at hlookup
    cases hlookup
  | file bytes =>
    obtain ⟨found, hsole⟩ := h.file directory name bytes hpatch
    obtain rfl : found = inode := Option.some.inj (hsole.lookup.symm.trans hlookup)
    exact ⟨bytes, hpatch, hsole⟩

/-- The only name of a file stays the only one. -/
theorem soleFile (h : Patched fs patch after) (hfs : fs.WellFormed)
    (hnone : patch directory name = none) (hsole : SoleFile fs directory name inode bytes) :
    SoleFile after directory name inode bytes := by
  have hlookup := (h.lookup_eq hfs hnone).trans hsole.lookup
  refine ⟨hlookup, h.node?_eq hfs hnone hsole.lookup hsole.node rfl,
    fun asked askedName hasked ↦ ?_⟩
  by_cases hfate : patch asked askedName = none
  · exact hsole.only asked askedName ((h.lookup_eq hfs hfate).symm.trans hasked)
  · obtain ⟨_, -, hother⟩ := h.soleFile_of_lookup hfate hasked
    obtain ⟨rfl, rfl⟩ := hother.only directory name hlookup
    exact absurd hnone hfate

/-- Patches of different names make up one. -/
theorem trans (h : Patched fs patch mid) (hnext : Patched mid more after)
    (hdisjoint : patch.Disjoint more) : Patched fs (patch.union more) after := by
  have hmid := h.wellFormed
  refine ⟨hnext.wellFormed, h.sameDirectories.trans hnext.sameDirectories,
    (h.others.trans hnext.others).weaken ?_, ?_, ?_⟩
  · rintro directory name hfate hnone
    rcases Option.or_eq_none_iff.1 hnone with ⟨hpatch, hmore⟩
    rcases hfate with hfate | hfate
    · exact hfate hpatch
    · exact hfate hmore
  · intro directory name hgone
    rcases (Patch.union_eq_some_iff hdisjoint).1 hgone with hpatch | hmore
    · have hnone : more directory name = none :=
        (hdisjoint directory name).resolve_left (by simp [hpatch])
      exact (hnext.lookup_eq hmid hnone).trans (h.gone directory name hpatch)
    · exact hnext.gone directory name hmore
  · intro directory name bytes hfile
    rcases (Patch.union_eq_some_iff hdisjoint).1 hfile with hpatch | hmore
    · have hnone : more directory name = none :=
        (hdisjoint directory name).resolve_left (by simp [hpatch])
      obtain ⟨inode, hsole⟩ := h.file directory name bytes hpatch
      exact ⟨inode, hnext.soleFile hmid hnone hsole⟩
    · exact hnext.file directory name bytes hmore

/-- Names share a node if they did and have no fate; with a fate, each has a node of its own. -/
theorem share_iff (h : Patched fs patch after) (hfs : fs.WellFormed) (first second : Inode × Name) :
    after.Share first second ↔
      patch first.1 first.2 = none ∧ patch second.1 second.2 = none ∧ fs.Share first second ∨
        first = second ∧ ∃ bytes, patch first.1 first.2 = some (.file bytes) := by
  constructor
  · rintro ⟨inode, hfirst, hsecond⟩
    by_cases hfate : patch first.1 first.2 = none
    · by_cases hother : patch second.1 second.2 = none
      · exact .inl ⟨hfate, hother, inode, h.lookup_eq hfs hfate ▸ hfirst,
          h.lookup_eq hfs hother ▸ hsecond⟩
      · obtain ⟨_, -, hsole⟩ := h.soleFile_of_lookup hother hsecond
        have hsame : first = second := Prod.ext_iff.2 (hsole.only _ _ hfirst)
        exact absurd (hsame ▸ hfate) hother
    · obtain ⟨bytes, hfile, hsole⟩ := h.soleFile_of_lookup hfate hfirst
      have hsame : second = first := Prod.ext_iff.2 (hsole.only _ _ hsecond)
      exact .inr ⟨hsame.symm, bytes, hfile⟩
  · rintro (⟨hfate, hother, inode, hfirst, hsecond⟩ | ⟨rfl, bytes, hfile⟩)
    · exact ⟨inode, (h.lookup_eq hfs hfate).trans hfirst, (h.lookup_eq hfs hother).trans hsecond⟩
    · obtain ⟨inode, hsole⟩ := h.file _ _ _ hfile
      exact ⟨inode, hsole.lookup, hsole.lookup⟩

/-- What a name looks like is decided by the patch and the tree before it. -/
theorem face_eq (h : Patched fs patch after) (directory : Inode) (name : Name) :
    (after.shown directory name).map Prod.snd =
      match patch directory name with
      | none => (fs.shown directory name).map Prod.snd
      | some .gone => none
      | some (.file bytes) => some (.file bytes) := by
  cases hpatch : patch directory name with
  | none => rw [h.others.shown directory name fun hne ↦ hne hpatch]
  | some fate =>
    cases fate with
    | gone => simp [shown, h.gone directory name hpatch]
    | file bytes =>
      obtain ⟨inode, hsole⟩ := h.file directory name bytes hpatch
      simp [shown, hsole.lookup, hsole.node, Node.face]

/-- Only names without a fate stand for directories. -/
theorem lookup_directory_iff (h : Patched fs patch after) (hfs : fs.WellFormed)
    (hdirectory : fs.isDirectoryNode inode = true) :
    after.lookup directory name = some inode ↔
      patch directory name = none ∧ fs.lookup directory name = some inode := by
  cases hpatch : patch directory name with
  | none => simp [h.lookup_eq hfs hpatch]
  | some fate =>
    have hnot : after.lookup directory name ≠ some inode := by
      intro hlookup
      obtain ⟨_, -, hsole⟩ := h.soleFile_of_lookup (by simp [hpatch]) hlookup
      have hafter := h.sameDirectories.there.directory _ hdirectory
      rw [isDirectoryNode_eq_false hsole.node rfl] at hafter
      cases hafter
    simp [hnot]

/-- A patch leaves one tree, but for the numbers of nodes. -/
theorem sameTree (h : Patched fs patch mid) (hother : Patched fs patch after)
    (hfs : fs.WellFormed) : SameTree mid after := by
  refine ⟨hother.others.workingDirectory.trans h.others.workingDirectory.symm,
    fun inode ↦ (hother.others.parent inode).trans (h.others.parent inode).symm, ?_, ?_, ?_⟩
  · intro directory name inode hmid
    have hdirectory : fs.isDirectoryNode inode = true :=
      h.sameDirectories.back.directory inode hmid
    rw [hother.lookup_directory_iff hfs hdirectory, h.lookup_directory_iff hfs hdirectory]
  · intro directory name
    rw [hother.face_eq, h.face_eq]
  · intro first second
    rw [hother.share_iff hfs, h.share_iff hfs]

end Patched

/-! ## Creating in a patched tree -/

/-- A directory is part of the tree if it is the root or has a name in the directory above it. -/
theorem isAttached_iff (hfs : fs.WellFormed) :
    fs.isAttached directory = true ↔ directory = root ∨
      ∃ parent name, fs.parent? directory = some parent ∧
        fs.lookup parent name = some directory := by
  unfold isAttached
  rw [Bool.or_eq_true, decide_eq_true_eq]
  refine or_congr_right ?_
  cases hparent : fs.parent? directory with
  | none => simp
  | some parent =>
    simp only [List.any_eq_true, decide_eq_true_eq, Option.some.injEq, exists_and_left,
      exists_eq_left']
    constructor
    · rintro ⟨⟨name, child⟩, hmem, rfl⟩
      exact ⟨name, hfs.lookup_of_mem hmem⟩
    · rintro ⟨name, hlookup⟩
      exact ⟨(name, directory), mem_entries_of_lookup hlookup, rfl⟩

/-- A directory keeps its name where the same directories are led to. -/
theorem SameDirectories.isAttached (h : SameDirectories fs other) (hfs : fs.WellFormed)
    (hother : other.WellFormed) (hparent : other.parent? directory = fs.parent? directory)
    (hdirectory : fs.isDirectoryNode directory = true)
    (hattached : fs.isAttached directory = true) : other.isAttached directory = true := by
  refine (isAttached_iff hother).2 ?_
  rcases (isAttached_iff hfs).1 hattached with hroot | ⟨parent, name, habove, hlookup⟩
  · exact .inl hroot
  · have hchild := hfs.child_of_lookup hlookup
    have hleads : fs.Leads parent [name] 0 directory :=
      .step hchild (not_link_of_isDirectoryNode hdirectory) (.here directory)
    exact .inr ⟨parent, name, hparent.trans habove, hother.lookup_of_child
      (hfs.isEntryName hlookup).2.2.1 (h.there.child _ _ _ _ _ hchild hleads hdirectory)⟩

namespace Patched

theorem isAttached_eq (h : Patched fs patch after) (hfs : fs.WellFormed)
    (hdirectory : fs.isDirectoryNode directory = true) :
    after.isAttached directory = fs.isAttached directory := by
  have hparent := h.others.parent directory
  have hafter := h.sameDirectories.there.directory directory hdirectory
  rw [Bool.eq_iff_iff]
  exact ⟨h.sameDirectories.symm.isAttached h.wellFormed hfs hparent.symm hafter,
    h.sameDirectories.isAttached hfs h.wellFormed hparent hdirectory⟩

/-- A name without a fate is found or missed as before. -/
theorem child_eq (h : Patched fs patch after) (hfs : fs.WellFormed)
    (hdirectory : fs.isDirectoryNode directory = true) (hnone : patch directory name = none) :
    after.child directory name = fs.child directory name := by
  obtain ⟨entries, parent, hnode⟩ := isDirectoryNode_iff.1 hdirectory
  obtain ⟨others, above, hafter⟩ :=
    isDirectoryNode_iff.1 (h.sameDirectories.there.directory directory hdirectory)
  have habove := h.others.parent directory
  rw [parent?_of_node? hnode, parent?_of_node? hafter, Option.some.injEq] at habove
  have hlookup := h.lookup_eq hfs hnone
  rw [lookup, lookup, entries_of_node? hnode, entries_of_node? hafter] at hlookup
  simp only [child, hnode, hafter, habove, hlookup]

/-- Whether creating fails, and why, a patch of other names does not change, unless links have to be
followed. -/
theorem create_map_eq (h : Patched fs patch after) (hfs : fs.WellFormed)
    (hname : fs.nameOf? path = some (directory, name)) (hnone : patch directory name = none)
    (hlink : fs.linkAt? directory name = none) (hlinkAfter : after.linkAt? directory name = none) :
    (after.create path).map (fun _ ↦ ()) = (fs.create path).map fun _ ↦ () := by
  obtain ⟨_, _, -, -, -, hdirectory⟩ := (nameOf?_eq_some_iff hfs).1 hname
  have hnameAfter := (h.sameDirectories.nameOf?_eq hfs h.wellFormed path).trans hname
  simp only [create, bind, Except.bind, placeOf_of_nameOf? hfs hname hlink,
    placeOf_of_nameOf? h.wellFormed hnameAfter hlinkAfter, h.child_eq hfs hdirectory hnone]
  cases checkPath path with
  | error cause => rfl
  | ok =>
    dsimp only
    split
    · rfl
    cases hchild : fs.child directory name with
    | ok inode =>
      have hplain : after.isDirectoryNode inode = fs.isDirectoryNode inode := by
        rw [Bool.eq_iff_iff]
        exact ⟨h.sameDirectories.back.directory inode, h.sameDirectories.there.directory inode⟩
      simp only [hplain]
      split <;> rfl
    | error cause =>
      split
      · next heq => cases heq
      · simp only [addNamed, h.isAttached_eq hfs hdirectory]
        split <;> rfl
      · rfl

end Patched

end LineMigration.FileSystem
