import LineMigration.FileSystem.Resolve

/-!
# Operations on files

Opening, creating, writing and moving, with the refusals of a file system. Creating follows a
symbolic link at the end of the path and makes the file that a dangling one names; moving treats
links as they are. A move onto another name of the same node changes nothing.

The module closes with the steps that set up a tree: `writeFile`, `makeDirectories`, `makeLink`,
`makeDevice`, `makeName`, `removeName` and `enter`.
-/

namespace LineMigration

namespace FileSystem

/-- Opens for reading. A directory can be opened too. -/
def openRead (fs : FileSystem) (path : Text) : Except Cause Inode := fs.resolve path

/-- A new node under a name that a directory does not have yet. -/
def addNamed (fs : FileSystem) (directory : Inode) (name : Name) (node : Node) :
    Except Cause (FileSystem × Inode) :=
  if fs.isAttached directory then
    let (larger, inode) := fs.add node
    .ok (larger.setName directory name inode, inode)
  else .error (.system .noEntry)

/-- Opens for writing from the start: what is there loses its content, what is not there is
made. -/
def create (fs : FileSystem) (path : Text) : Except Cause (FileSystem × Inode) := do
  checkPath path
  match ← fs.placeOf .followBare path with
  | .top _ => .error (.system .isDirectory)
  | .entry directory name slash =>
    if slash || Path.isDots name then .error (.system .isDirectory)
    else
      match fs.child directory name with
      | .ok inode =>
        if fs.isDirectoryNode inode then .error (.system .isDirectory)
        else .ok (fs.modify inode Node.truncated, inode)
      | .error (.system .noEntry) => fs.addNamed directory name (.file [])
      | .error cause => .error cause

/-! ## Moving -/

/-- Whether a node is met on the way from a directory up to the root; `fuel` bounds the climb. -/
def isMetAbove (fs : FileSystem) (upper : Inode) : Nat → Inode → Bool
  | 0, _ => false
  | fuel + 1, lower =>
    upper = lower ||
      (lower ≠ root &&
        match fs.parent? lower with
        | some parent => isMetAbove fs upper fuel parent
        | none => false)

/-- Whether a node is a directory that another directory is, or lies below. -/
def isAbove (fs : FileSystem) (upper lower : Inode) : Bool :=
  fs.isDirectoryNode upper && fs.isMetAbove upper fs.nodes.length lower

/-- A directory and the name in it that a move takes or gives. The root and the dots cannot be
moved. -/
def movable : Place → Except Cause (Inode × Name × Bool)
  | .top _ => .error (.system .busy)
  | .entry directory name slash =>
    if Path.isDots name then .error (.system .busy) else .ok (directory, name, slash)

/-- What a name stands for, where it may stand for nothing. -/
def child? (fs : FileSystem) (directory : Inode) (name : Name) : Except Cause (Option Inode) :=
  match fs.child directory name with
  | .ok inode => .ok (some inode)
  | .error (.system .noEntry) => .ok none
  | .error cause => .error cause

/-- What a node that is moved may take the place of. -/
def mayReplace (fs : FileSystem) (moved victim : Inode) : Except Cause Unit :=
  match fs.isDirectoryNode moved, fs.isDirectoryNode victim with
  | true, false => .error (.system .notDirectory)
  | false, true => .error (.system .isDirectory)
  | true, true => if (fs.entries victim).isEmpty then .ok () else .error (.system .notEmpty)
  | false, false => .ok ()

/-- The node of a moved directory with the directory that is now above it. -/
def setParent (parent : Inode) : Node → Node
  | .directory entries _ => .directory entries parent
  | node => node

/-- The tree after a move that nothing forbids. -/
def relocate (fs : FileSystem) (source : Inode × Name) (target : Inode × Name) (moved : Inode) :
    FileSystem :=
  ((fs.setName target.1 target.2 moved).clearName source.1 source.2).modify moved
    (setParent target.1)

/-- Moves the name `source` to the name `target`; what had that name loses it. -/
def rename (fs : FileSystem) (source target : Text) : Except Cause FileSystem := do
  if '\x00' ∈ source ∨ '\x00' ∈ target then .error .nulInPath
  checkPath source
  let sourcePlace ← fs.placeOf .keep source
  checkPath target
  let targetPlace ← fs.placeOf .keep target
  let (sourceDirectory, sourceName, sourceSlash) ← movable sourcePlace
  let (targetDirectory, targetName, targetSlash) ← movable targetPlace
  let moved ← fs.child sourceDirectory sourceName
  let victim? ← fs.child? targetDirectory targetName
  if !fs.isDirectoryNode moved && (sourceSlash || targetSlash) then
    .error (.system .notDirectory)
  if fs.isAbove moved targetDirectory then .error (.system .invalid)
  let updated := fs.relocate (sourceDirectory, sourceName) (targetDirectory, targetName) moved
  match victim? with
  | none =>
    if fs.isAttached targetDirectory then .ok updated else .error (.system .noEntry)
  | some victim =>
    if fs.isAbove victim sourceDirectory then .error (.system .notEmpty)
    if moved = victim then .ok fs
    else do
      fs.mayReplace moved victim
      .ok updated

/-! ## Setting up a tree -/

/-- A file with this content at a path, links followed. -/
def writeFile (fs : FileSystem) (path : Text) (bytes : Bytes) : Except Cause FileSystem := do
  let (created, inode) ← fs.create path
  .ok (created.append inode bytes)

/-- The directory of a name that is new there. -/
def newName (fs : FileSystem) (path : Text) : Except Cause (Inode × Name) := do
  checkPath path
  match ← fs.placeOf .keep path with
  | .top _ => .error (.system .exists)
  | .entry directory name _ =>
    match ← fs.child? directory name with
    | some _ => .error (.system .exists)
    | none => .ok (directory, name)

/-- One more directory at each prefix of the names that leads nowhere yet. -/
def makeDirectoriesFrom (fs : FileSystem) (start : Inode) (walked : List Name) :
    List Name → Except Cause FileSystem
  | [] => .ok fs
  | name :: rest =>
    let reached := walked ++ [name]
    match fs.walk .follow maxLinks start ⟨reached, true⟩ >>= fs.nodeAt with
    | .ok _ => makeDirectoriesFrom fs start reached rest
    | .error _ =>
      match fs.walk .keep maxLinks start ⟨reached, false⟩ with
      | .ok (.entry directory last _) =>
        match fs.child? directory last with
        | .ok none =>
          match fs.addNamed directory last (.directory [] directory) with
          | .ok (larger, _) => makeDirectoriesFrom larger start reached rest
          | .error cause => .error cause
        | .ok (some _) => .error (.system .exists)
        | .error cause => .error cause
      | .ok (.top _) => .error (.system .exists)
      | .error cause => .error cause

/-- A directory at a path, and those above it that are missing. -/
def makeDirectories (fs : FileSystem) (path : Text) : Except Cause FileSystem := do
  checkPath path
  fs.makeDirectoriesFrom (startOf fs.workingDirectory path) [] (Route.ofPath path).names

/-- A new node at a path. -/
def makeNode (fs : FileSystem) (path : Text) (node : Node) : Except Cause FileSystem := do
  let (directory, name) ← fs.newName path
  let (larger, _) ← fs.addNamed directory name node
  .ok larger

/-- A symbolic link with this text. -/
def makeLink (fs : FileSystem) (path target : Text) : Except Cause FileSystem :=
  fs.makeNode path (.link target)

/-- A device with this capacity; `none` for one that takes everything. -/
def makeDevice (fs : FileSystem) (path : Text) (capacity : Option Nat) : Except Cause FileSystem :=
  fs.makeNode path (.device capacity [])

/-- One more name for what `existing` names; a symbolic link there is not followed, and a directory
has no other name. -/
def makeName (fs : FileSystem) (path existing : Text) : Except Cause FileSystem := do
  checkPath existing
  let inode ← fs.placeOf .keep existing >>= fs.nodeAt
  let (directory, name) ← fs.newName path
  if fs.isDirectoryNode inode then .error (.system .notPermitted)
  else .ok (fs.setName directory name inode)

/-- Takes the name of a file away; a symbolic link at the end is not followed. -/
def removeName (fs : FileSystem) (path : Text) : Except Cause FileSystem := do
  checkPath path
  let (directory, name, _) ← fs.placeOf .keep path >>= movable
  let inode ← fs.child directory name
  if fs.isDirectoryNode inode then .error (.system .isDirectory)
  else .ok (fs.clearName directory name)

/-- The file system with another working directory. -/
def enter (fs : FileSystem) (path : Text) : Except Cause FileSystem := do
  let inode ← fs.resolve path
  if fs.isDirectoryNode inode then .ok { fs with workingDirectory := inode }
  else .error (.system .notDirectory)

end FileSystem

end LineMigration
