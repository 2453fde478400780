import LineMigration.FileSystem.Operations

/-!
# What a file system shows

`read?` is what reading through a path gives of a regular file and `bytesAt?` of anything,
`entryAt?` the directory entry that a path names without following a link at its end, and
`nameCount` how many names a node has in all directories. Operations are described by what they do
to these.
-/

namespace LineMigration

/-- The entries of a node that is a directory. -/
def Node.entries : Node → List (Name × Inode)
  | .directory entries _ => entries
  | _ => []

namespace FileSystem

/-- The bytes of the regular file that a path leads to, all links followed. -/
def read? (fs : FileSystem) (path : Text) : Option Bytes :=
  match fs.resolve path with
  | .ok inode =>
    match fs.node? inode with
    | some (.file bytes) => some bytes
    | _ => none
  | .error _ => none

/-- What reading through a path gives, all links followed, be it a file or a device; a directory
cannot be read. -/
def bytesAt? (fs : FileSystem) (path : Text) : Option Bytes :=
  match fs.resolve path with
  | .ok inode => if fs.isDirectoryNode inode then none else some (fs.contents inode)
  | .error _ => none

/-- The directory and the name that a path ends in. -/
def nameOf? (fs : FileSystem) (path : Text) : Option (Inode × Name) :=
  match fs.placeOf .keep path with
  | .ok (.entry directory name _) => some (directory, name)
  | _ => none

/-- What the last name of a path stands for, a link at the end not followed. -/
def entryAt? (fs : FileSystem) (path : Text) : Option Inode :=
  (fs.nameOf? path).bind fun (directory, name) ↦ fs.lookup directory name

/-- How many names a node has: the entries of all directories that stand for it. -/
def nameCount (fs : FileSystem) (inode : Inode) : Nat :=
  (fs.nodes.flatMap Node.entries).countP (·.2 = inode)

/-- A path names a regular file that has no other name. -/
def IsLoneFile (fs : FileSystem) (path : Text) : Prop :=
  ∃ inode bytes, fs.entryAt? path = some inode ∧ fs.node? inode = some (.file bytes) ∧
    fs.nameCount inode = 1

/-- A path names a regular file, with no link at the end to follow, and reads these bytes. -/
structure IsFileAt (fs : FileSystem) (path : Text) (bytes : Bytes) : Prop where
  read : fs.read? path = some bytes
  entry : ∃ inode, fs.entryAt? path = some inode ∧ fs.node? inode = some (.file bytes)

end FileSystem

end LineMigration
