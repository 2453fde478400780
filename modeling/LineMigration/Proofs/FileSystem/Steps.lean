import Mathlib.Logic.Relation
import LineMigration.Proofs.FileSystem.Rename

/-!
# Steps of a file system

Every operation that changes a file system leaves a well-formed one, by a lemma for each. `Step`
lists the operations, the setting up of a tree and the working on it, and `Steps` is any number of
them one after another; what is made of the empty file system is well formed
(`wellFormed_of_steps`).
-/

namespace LineMigration.FileSystem

open LineMigration.Path

variable {fs next : FileSystem} {directory start inode : Inode} {name : Name}
  {names walked : List Name} {node : Node} {path existing source target text : Text} {bytes : Bytes}
  {last : LastLink} {place : Place}

/-! ## Names and places -/

theorem child?_eq_none_iff :
    fs.child? directory name = .ok none ↔
      fs.child directory name = .error (.system .noEntry) := by
  unfold child?
  split
  · next h => simp [h]
  · next h => simp [h]
  · next h hother => simpa [hother] using h

theorem child?_eq_some_iff :
    fs.child? directory name = .ok (some inode) ↔ fs.child directory name = .ok inode := by
  unfold child?
  split
  · next h => simp [h]
  · next h => simp [h]
  · next _ h => simp [h]

/-- A name that is new in a directory is one that an entry can have. -/
theorem isEntryName_of_newName (h : fs.newName path = .ok (directory, name)) :
    IsEntryName name := by
  obtain ⟨_, -, h⟩ := bind_eq_ok_iff.1 h
  obtain ⟨place, hplace, h⟩ := bind_eq_ok_iff.1 h
  cases place with
  | top => cases h
  | entry found last slash =>
    obtain ⟨child, hchild, h⟩ := bind_eq_ok_iff.1 h
    cases child with
    | some => cases h
    | none =>
      cases h
      exact isEntryName_of_walk (fun _ ↦ isSpelled_of_mem_ofPath) hplace
        (child?_eq_none_iff.1 hchild)

/-- What stands at the end of a path is a node. -/
theorem lt_of_placeOf (hfs : fs.WellFormed) (hplace : fs.placeOf last path = .ok place)
    (hnode : fs.nodeAt place = .ok inode) : inode < fs.nodes.length := by
  cases place with
  | top found =>
    cases hnode
    have hstart := hfs.isDirectoryNode_startOf hfs.workingDirectory path
    exact lt_of_isDirectoryNode (isDirectoryNode_of_walk_top hfs hstart hplace)
  | entry => exact hfs.lt_of_child (nodeAt_entry_eq_ok_iff.1 hnode).1

/-- The name that a move gives is one that an entry of that directory can have. -/
theorem isEntryName_of_movable (hfs : fs.WellFormed) {slash : Bool} {victim? : Option Inode}
    (hplace : fs.placeOf last path = .ok place)
    (hmovable : movable place = .ok (directory, name, slash))
    (hvictim : fs.child? directory name = .ok victim?) :
    IsEntryName name ∧ fs.isDirectoryNode directory = true := by
  cases place with
  | top => cases hmovable
  | entry found asked after =>
    simp only [movable] at hmovable
    split at hmovable
    · cases hmovable
    next hdots =>
    cases hmovable
    cases victim? with
    | none =>
      have hchild := child?_eq_none_iff.1 hvictim
      exact ⟨isEntryName_of_walk (fun _ ↦ isSpelled_of_mem_ofPath) hplace hchild,
        (lookup_of_child_noEntry hchild).1⟩
    | some victim =>
      have hchild := child?_eq_some_iff.1 hvictim
      exact ⟨hfs.isEntryName (hfs.lookup_of_child (Bool.eq_false_iff.2 hdots) hchild),
        isDirectoryNode_of_child hchild⟩

/-! ## Each operation -/

namespace WellFormed

theorem addNamed (hfs : fs.WellFormed) (hname : IsEntryName name)
    (hnode : node.FitsInto (fs.add node).1)
    (h : fs.addNamed directory name node = .ok (next, inode)) : next.WellFormed := by
  unfold FileSystem.addNamed at h
  split at h
  · cases h
    exact (hfs.add hnode).setName hname (by simp [FileSystem.add])
  · cases h

theorem create (hfs : fs.WellFormed) (h : fs.create path = .ok (next, inode)) : next.WellFormed :=
  (created_of_create h).2.wellFormed hfs

theorem append (hfs : fs.WellFormed) (inode : Inode) (bytes : Bytes) :
    (fs.append inode bytes).WellFormed :=
  (sameOutline_append fs inode bytes).wellFormed hfs

theorem writeFile (hfs : fs.WellFormed) (h : fs.writeFile path bytes = .ok next) :
    next.WellFormed := by
  obtain ⟨⟨created, inode⟩, hcreate, h⟩ := bind_eq_ok_iff.1 h
  cases h
  exact (hfs.create hcreate).append inode bytes

theorem makeNode (hfs : fs.WellFormed) (hplain : node.isDirectory = false)
    (h : fs.makeNode path node = .ok next) : next.WellFormed := by
  obtain ⟨⟨directory, name⟩, hname, h⟩ := bind_eq_ok_iff.1 h
  obtain ⟨⟨larger, inode⟩, hadded, h⟩ := bind_eq_ok_iff.1 h
  cases h
  exact hfs.addNamed (isEntryName_of_newName hname) (Node.fitsInto_of_plain hplain) hadded

theorem makeLink (hfs : fs.WellFormed) (h : fs.makeLink path text = .ok next) : next.WellFormed :=
  hfs.makeNode rfl h

theorem makeDevice {capacity : Option Nat} (hfs : fs.WellFormed)
    (h : fs.makeDevice path capacity = .ok next) : next.WellFormed :=
  hfs.makeNode rfl h

/-- One directory after another, each at a name that leads nowhere yet. -/
theorem makeDirectoriesFrom (hfs : fs.WellFormed) (hwalked : ∀ name ∈ walked, IsSpelled name)
    (hnames : ∀ name ∈ names, IsSpelled name)
    (h : fs.makeDirectoriesFrom start walked names = .ok next) : next.WellFormed := by
  induction names generalizing fs walked with
  | nil =>
    cases h
    exact hfs
  | cons name rest ih =>
    have hreached : ∀ asked ∈ walked ++ [name], IsSpelled asked := by
      intro asked hasked
      rcases List.mem_append.1 hasked with hearlier | hhere
      · exact hwalked asked hearlier
      · exact hnames asked (List.mem_singleton.1 hhere ▸ List.mem_cons_self)
    have hrest : ∀ asked ∈ rest, IsSpelled asked := fun asked hasked ↦
      hnames asked (List.mem_cons_of_mem _ hasked)
    simp only [FileSystem.makeDirectoriesFrom] at h
    split at h
    · exact ih hfs hreached hrest h
    split at h
    · next directory last slash hwalk =>
      split at h
      · next hchild? =>
        have hchild := child?_eq_none_iff.1 hchild?
        split at h
        · next larger inode hadded =>
          have hnode : (Node.directory [] directory).FitsInto
              (fs.add (.directory [] directory)).1 :=
            ⟨isDirectoryNode_add (lookup_of_child_noEntry hchild).1, List.nodup_nil, nofun⟩
          have hlarger := hfs.addNamed (isEntryName_of_walk hreached hwalk hchild) hnode hadded
          exact ih hlarger hreached hrest h
        · cases h
      · cases h
      · cases h
    · cases h
    · cases h

theorem makeDirectories (hfs : fs.WellFormed) (h : fs.makeDirectories path = .ok next) :
    next.WellFormed := by
  obtain ⟨_, -, h⟩ := bind_eq_ok_iff.1 h
  exact hfs.makeDirectoriesFrom (List.forall_mem_nil _) (fun _ ↦ isSpelled_of_mem_ofPath) h

theorem makeName (hfs : fs.WellFormed) (h : fs.makeName path existing = .ok next) :
    next.WellFormed := by
  obtain ⟨_, -, h⟩ := bind_eq_ok_iff.1 h
  obtain ⟨inode, hinode, h⟩ := bind_eq_ok_iff.1 h
  obtain ⟨place, hplace, hnode⟩ := bind_eq_ok_iff.1 hinode
  obtain ⟨⟨directory, name⟩, hname, h⟩ := bind_eq_ok_iff.1 h
  dsimp only at h
  split at h
  · cases h
  · cases h
    exact hfs.setName (isEntryName_of_newName hname) (lt_of_placeOf hfs hplace hnode)

theorem removeName (hfs : fs.WellFormed) (h : fs.removeName path = .ok next) :
    next.WellFormed := by
  obtain ⟨_, -, h⟩ := bind_eq_ok_iff.1 h
  obtain ⟨⟨directory, name, slash⟩, -, h⟩ := bind_eq_ok_iff.1 h
  obtain ⟨inode, -, h⟩ := bind_eq_ok_iff.1 h
  split at h
  · cases h
  · cases h
    exact hfs.clearName

theorem enter (hfs : fs.WellFormed) (h : fs.enter path = .ok next) : next.WellFormed := by
  obtain ⟨inode, -, h⟩ := bind_eq_ok_iff.1 h
  split at h
  · next hdirectory =>
    cases h
    exact ⟨hfs.root, hdirectory, hfs.fits⟩
  · cases h

/-- Whatever is moved, be it a directory, and whatever it takes the place of. -/
theorem rename (hfs : fs.WellFormed) (h : fs.rename source target = .ok next) :
    next.WellFormed := by
  unfold FileSystem.rename at h
  split at h
  · cases h
  obtain ⟨_, -, h⟩ := bind_eq_ok_iff.1 h
  obtain ⟨sourcePlace, -, h⟩ := bind_eq_ok_iff.1 h
  obtain ⟨_, -, h⟩ := bind_eq_ok_iff.1 h
  obtain ⟨targetPlace, hplace, h⟩ := bind_eq_ok_iff.1 h
  obtain ⟨⟨sourceDirectory, sourceName, sourceSlash⟩, -, h⟩ := bind_eq_ok_iff.1 h
  obtain ⟨⟨targetDirectory, targetName, targetSlash⟩, hmovable, h⟩ := bind_eq_ok_iff.1 h
  obtain ⟨moved, hmoved, h⟩ := bind_eq_ok_iff.1 h
  obtain ⟨victim?, hvictim, h⟩ := bind_eq_ok_iff.1 h
  obtain ⟨hname, hdirectory⟩ := isEntryName_of_movable hfs hplace hmovable hvictim
  have hrelocated : (fs.relocate (sourceDirectory, sourceName) (targetDirectory, targetName)
      moved).WellFormed := hfs.relocate (hfs.lt_of_child hmoved) hname hdirectory
  -- What is left are refusals, which change nothing, and the move itself.
  dsimp only at h
  split at h
  · cases h
  split at h
  · cases h
  cases victim? with
  | none =>
    dsimp only at h
    split at h
    · cases h
      exact hrelocated
    · cases h
  | some victim =>
    dsimp only at h
    split at h
    · cases h
    split at h
    · cases h
      exact hfs
    · obtain ⟨_, -, h⟩ := bind_eq_ok_iff.1 h
      cases h
      exact hrelocated

end WellFormed

/-! ## All of them -/

/-- One operation that has changed a file system. -/
inductive Step : FileSystem → FileSystem → Prop where
  | writeFile {path : Text} {bytes : Bytes} {fs next : FileSystem} :
      fs.writeFile path bytes = .ok next → Step fs next
  | makeDirectories {path : Text} {fs next : FileSystem} :
      fs.makeDirectories path = .ok next → Step fs next
  | makeLink {path text : Text} {fs next : FileSystem} :
      fs.makeLink path text = .ok next → Step fs next
  | makeDevice {path : Text} {capacity : Option Nat} {fs next : FileSystem} :
      fs.makeDevice path capacity = .ok next → Step fs next
  | makeName {path existing : Text} {fs next : FileSystem} :
      fs.makeName path existing = .ok next → Step fs next
  | removeName {path : Text} {fs next : FileSystem} :
      fs.removeName path = .ok next → Step fs next
  | enter {path : Text} {fs next : FileSystem} : fs.enter path = .ok next → Step fs next
  | create {path : Text} {inode : Inode} {fs next : FileSystem} :
      fs.create path = .ok (next, inode) → Step fs next
  | append (fs : FileSystem) (inode : Inode) (bytes : Bytes) : Step fs (fs.append inode bytes)
  | rename {source target : Text} {fs next : FileSystem} :
      fs.rename source target = .ok next → Step fs next

/-- Any number of operations, one after another. -/
abbrev Steps : FileSystem → FileSystem → Prop := Relation.ReflTransGen Step

theorem Step.wellFormed (h : Step fs next) (hfs : fs.WellFormed) : next.WellFormed := by
  cases h with
  | writeFile h => exact hfs.writeFile h
  | makeDirectories h => exact hfs.makeDirectories h
  | makeLink h => exact hfs.makeLink h
  | makeDevice h => exact hfs.makeDevice h
  | makeName h => exact hfs.makeName h
  | removeName h => exact hfs.removeName h
  | enter h => exact hfs.enter h
  | create h => exact hfs.create h
  | append => exact hfs.append _ _
  | rename h => exact hfs.rename h

theorem Steps.wellFormed (h : Steps fs next) (hfs : fs.WellFormed) : next.WellFormed := by
  induction h with
  | refl => exact hfs
  | tail _ hstep ih => exact hstep.wellFormed ih

/-- Whatever is made of the empty file system is well formed. -/
theorem wellFormed_of_steps (h : Steps empty fs) : fs.WellFormed :=
  h.wellFormed (by decide)

end LineMigration.FileSystem
