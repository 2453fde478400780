import LineMigration.Proofs.FileSystem.Names

/-!
# Moving files

The move of a plain node onto another cannot fail where both paths end in their names
(`rename_files`): it changes nothing if the two are one node, and else the one name goes and the
other stands for what was moved (`lookup_relocate`).
-/

namespace LineMigration.FileSystem

open LineMigration.Path

variable {fs : FileSystem} {directory moved victim asked sourceDirectory targetDirectory : Inode}
  {name sourceName targetName : Name} {source target : Text} {bytes : Bytes}

/-! ## The move of a plain node -/

/-- A change that leaves the node as it is changes nothing. -/
theorem modify_eq_self {change : Node → Node} {inode : Inode}
    (h : ∀ node, fs.node? inode = some node → change node = node) :
    fs.modify inode change = fs := by
  have hnodes : (fs.modify inode change).nodes = fs.nodes := by
    refine List.ext_getElem? ?_
    intro asked
    show (fs.modify inode change).node? asked = fs.node? asked
    rw [node?_modify]
    by_cases heq : asked = inode
    · rw [if_pos heq, heq]
      cases hnode : fs.node? inode with
      | none => rfl
      | some node => rw [Option.map_some, h node hnode]
    · rw [if_neg heq]
  cases fs
  simp only [modify] at hnodes ⊢
  rw [hnodes]

/-- Writing nothing changes nothing. -/
theorem append_nil (fs : FileSystem) (inode : Inode) : fs.append inode [] = fs := by
  refine modify_eq_self fun node _ ↦ ?_
  cases node <;> simp [Node.extended]

/-- Giving one name and taking another away changes nothing but entries. -/
theorem sameFaces_exchange (fs : FileSystem) (sourceDirectory : Inode) (sourceName : Name)
    (targetDirectory : Inode) (targetName : Name) (moved : Inode) :
    Same Node.face fs
      ((fs.setName targetDirectory targetName moved).clearName sourceDirectory sourceName) :=
  (sameFaces_setName _ _ _ _).trans (sameFaces_clearName _ _ _)

/-- A plain node has no directory above it that could change. -/
theorem relocate_eq (hplain : fs.isDirectoryNode moved = false) :
    fs.relocate (sourceDirectory, sourceName) (targetDirectory, targetName) moved =
      (fs.setName targetDirectory targetName moved).clearName sourceDirectory sourceName := by
  refine modify_eq_self ?_
  intro node hnode
  have hfaces := sameFaces_exchange fs sourceDirectory sourceName targetDirectory targetName moved
  cases node with
  | directory entries parent =>
    rw [← hfaces.isDirectoryNode_eq, isDirectoryNode, hnode] at hplain
    cases hplain
  | file => rfl
  | link => rfl
  | device => rfl

theorem sameFaces_relocate (hplain : fs.isDirectoryNode moved = false) :
    Same Node.face fs
      (fs.relocate (sourceDirectory, sourceName) (targetDirectory, targetName) moved) := by
  rw [relocate_eq hplain]
  exact sameFaces_exchange ..

/-- After a move the one name stands for nothing and the other for what was moved. -/
theorem lookup_relocate (hplain : fs.isDirectoryNode moved = false)
    (hsource : fs.isDirectoryNode sourceDirectory = true)
    (htarget : fs.isDirectoryNode targetDirectory = true) :
    (fs.relocate (sourceDirectory, sourceName) (targetDirectory, targetName) moved).lookup asked
        name =
      if asked = sourceDirectory ∧ name = sourceName then none
      else if asked = targetDirectory ∧ name = targetName then some moved
      else fs.lookup asked name := by
  have hset : (fs.setName targetDirectory targetName moved).isDirectoryNode sourceDirectory =
      true := by
    rw [(sameFaces_setName _ _ _ _).isDirectoryNode_eq]
    exact hsource
  rw [relocate_eq hplain, lookup_clearName hset, lookup_setName htarget]

/-- Whatever is moved, a name that an entry can have may stand for it in a directory. -/
theorem WellFormed.relocate (hfs : fs.WellFormed) (hmoved : moved < fs.nodes.length)
    (hname : IsEntryName targetName) (htarget : fs.isDirectoryNode targetDirectory = true) :
    (fs.relocate (sourceDirectory, sourceName) (targetDirectory, targetName) moved).WellFormed := by
  have hfaces := sameFaces_exchange fs sourceDirectory sourceName targetDirectory targetName moved
  refine (hfs.setName hname hmoved).clearName.modify (fun node ↦ by cases node <;> rfl) ?_
  intro node hnode
  cases node with
  | directory entries parent =>
    refine ⟨?_, hnode.2⟩
    rw [hfaces.isDirectoryNode_eq]
    exact htarget
  | file => trivial
  | link => trivial
  | device => trivial

/-- Where directories look the same, a name that stands for the same leads to the same. -/
theorem Same.child_of_lookup {other : FileSystem} {inode : Inode} (h : Same Node.face fs other)
    (hfs : fs.WellFormed) (hother : other.WellFormed)
    (hchild : fs.child directory name = .ok inode)
    (hlookup : fs.lookup directory name = some inode →
      other.lookup directory name = some inode) : other.child directory name = .ok inode := by
  rw [hother.child_eq_ok_iff, h.isDirectoryNode_eq, h.parent?_eq]
  rcases hfs.child_eq_ok_iff.1 hchild with hhere | habove | hentry
  · exact Or.inl hhere
  · exact Or.inr (Or.inl habove)
  · exact Or.inr (Or.inr (hlookup hentry))

/-- A move is seen under the two names that take part in it, and under no other. -/
theorem unchangedBut_relocate (hplain : fs.isDirectoryNode moved = false)
    (hsource : fs.isDirectoryNode sourceDirectory = true)
    (htarget : fs.isDirectoryNode targetDirectory = true) :
    UnchangedBut (fun asked name ↦ asked = sourceDirectory ∧ name = sourceName ∨
        asked = targetDirectory ∧ name = targetName) fs
      (fs.relocate (sourceDirectory, sourceName) (targetDirectory, targetName) moved) := by
  have hfaces : Same Node.face fs
      (fs.relocate (sourceDirectory, sourceName) (targetDirectory, targetName) moved) :=
    sameFaces_relocate hplain
  refine ⟨hfaces.workingDirectory, hfaces.parent?_eq, fun asked name hneither ↦ ?_⟩
  refine shown_eq_of_lookup ?_ fun inode _ ↦ hfaces.view inode
  rw [lookup_relocate hplain hsource htarget, if_neg fun h ↦ hneither (Or.inl h),
    if_neg fun h ↦ hneither (Or.inr h)]

/-- A file that is moved has its new name and no other. -/
theorem SoleFile.relocate (h : SoleFile fs sourceDirectory sourceName moved bytes)
    (htarget : fs.isDirectoryNode targetDirectory = true)
    (hne : ¬ (targetDirectory = sourceDirectory ∧ targetName = sourceName)) :
    SoleFile (fs.relocate (sourceDirectory, sourceName) (targetDirectory, targetName) moved)
      targetDirectory targetName moved bytes := by
  have hplain : fs.isDirectoryNode moved = false := isDirectoryNode_eq_false h.node rfl
  have hsource := isDirectoryNode_of_lookup h.lookup
  refine ⟨?_, (sameFaces_relocate hplain).node?_plain h.node rfl, fun other asked hother ↦ ?_⟩
  · rw [lookup_relocate hplain hsource htarget, if_neg hne, if_pos ⟨rfl, rfl⟩]
  · rw [lookup_relocate hplain hsource htarget] at hother
    split at hother
    · cases hother
    next hgone =>
    split at hother
    · assumption
    · exact absurd (h.only other asked hother) hgone

/-! ## Moves that cannot fail -/

/-- Moving a plain node from its name to that of a plain node does not fail. -/
theorem rename_files (hfs : fs.WellFormed)
    (hcheckSource : checkPath source = .ok ()) (hcheckTarget : checkPath target = .ok ())
    (hsource : fs.nameOf? source = some (sourceDirectory, sourceName))
    (hsourceSlash : (Route.ofPath source).slash = false)
    (htarget : fs.nameOf? target = some (targetDirectory, targetName))
    (htargetSlash : (Route.ofPath target).slash = false)
    (hmoved : fs.lookup sourceDirectory sourceName = some moved)
    (hmovedPlain : fs.isDirectoryNode moved = false)
    (hvictim : fs.lookup targetDirectory targetName = some victim)
    (hvictimPlain : fs.isDirectoryNode victim = false) :
    fs.rename source target = .ok (if moved = victim then fs else
      fs.relocate (sourceDirectory, sourceName) (targetDirectory, targetName) moved) := by
  have hsourcePlace := placeOf_keep_of_nameOf? hfs hsource
  have htargetPlace := placeOf_keep_of_nameOf? hfs htarget
  have hsourceChild := hfs.child_of_lookup hmoved
  have htargetChild := hfs.child_of_lookup hvictim
  have hsourceDots := (hfs.isEntryName hmoved).2.2.1
  have htargetDots := (hfs.isEntryName hvictim).2.2.1
  have hnul : ¬ ('\x00' ∈ source ∨ '\x00' ∈ target) := by
    simp [(checkPath_eq_ok_iff.1 hcheckSource).1, (checkPath_eq_ok_iff.1 hcheckTarget).1]
  have hsourceMovable : movable (.entry sourceDirectory sourceName false) =
      .ok (sourceDirectory, sourceName, false) := by simp [movable, hsourceDots]
  have htargetMovable : movable (.entry targetDirectory targetName false) =
      .ok (targetDirectory, targetName, false) := by simp [movable, htargetDots]
  have hvictimChild : fs.child? targetDirectory targetName = .ok (some victim) := by
    simp [child?, htargetChild]
  have hreplace : fs.mayReplace moved victim = .ok () := by
    simp [mayReplace, hmovedPlain, hvictimPlain]
  rw [hsourceSlash] at hsourcePlace
  rw [htargetSlash] at htargetPlace
  -- Neither node is a directory, so none of the refusals of a move is met.
  simp only [rename, bind, Except.bind, if_neg hnul, hcheckSource, hcheckTarget, hsourcePlace,
    htargetPlace, hsourceMovable, htargetMovable, hsourceChild, hvictimChild, hreplace, isAbove,
    hmovedPlain, hvictimPlain]
  by_cases heq : moved = victim
  · simp [heq]
  · simp [heq]

end LineMigration.FileSystem
