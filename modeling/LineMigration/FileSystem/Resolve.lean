import LineMigration.FileSystem.Basic
import LineMigration.Text.Utf8

/-!
# Resolving paths

How a path leads to a node. `descend` walks names through plain directories and stops at the
last name or at a symbolic link that has to be followed; `walk` puts the text of the link in its
place and goes on, over at most `maxLinks` links. `resolve` follows a link at the end of the path
too, `place` can leave it alone: what it gives is a directory and the last name in it, whether or
not that name stands for anything.

A path ends in a slash only where a directory is meant. The limits on paths and names are in
octets of their UTF-8 form.
-/

namespace LineMigration

/-- So many octets a path may not have. -/
def pathLimit : Nat := 4096

/-- So many octets a name may have. -/
def nameLimit : Nat := 255

/-- So many symbolic links may be followed on the way of one path. -/
def maxLinks : Nat := 40

/-- A path as it is walked: the names between its slashes, dots included, and whether a slash
follows the last one. -/
structure Route where
  names : List Name
  slash : Bool
  deriving DecidableEq

namespace Route

/-- The route of a path. -/
def ofPath (path : Text) : Route :=
  ⟨(Path.pieces path).filter (!·.isEmpty), Path.endsInSlash path⟩

/-- The route with more names after it; without any it ends in a slash if either part does. -/
def append (route : Route) (rest : List Name) (slash : Bool) : Route :=
  ⟨route.names ++ rest, slash || (rest.isEmpty && route.slash)⟩

end Route

/-- What is done with a symbolic link that the last name stands for. -/
inductive LastLink where
  /-- It is followed. -/
  | follow
  /-- It is followed unless a slash comes after it. -/
  | followBare
  /-- It is meant itself. -/
  | keep
  deriving DecidableEq

/-- Whether the link is followed, where `slash` says if a slash follows its name. -/
def LastLink.follows (last : LastLink) (slash : Bool) : Bool :=
  match last with
  | follow => true
  | followBare => !slash
  | keep => false

/-- Where a walk ends. -/
inductive Place where
  /-- At a directory without a last name: the root. -/
  | top (directory : Inode)
  /-- At a last name in a directory, and whether a slash follows it. -/
  | entry (directory : Inode) (name : Name) (slash : Bool)
  deriving DecidableEq

/-- Where a walk through plain directories stops. -/
inductive Stop where
  | top (directory : Inode)
  | entry (directory : Inode) (name : Name)
  /-- At a symbolic link found in `directory`, with the names after it. -/
  | link (directory : Inode) (target : Text) (rest : List Name)
  deriving DecidableEq

/-- The dot that names a directory itself. -/
def Path.here : Name := ['.']

/-- Whether a name is one of the two that every directory has without an entry. -/
def Path.isDots (name : Name) : Bool := name = Path.here || name = Path.above

namespace FileSystem

/-- What a name stands for in a directory, the dots included. -/
def child (fs : FileSystem) (directory : Inode) (name : Name) : Except Cause Inode :=
  match fs.node? directory with
  | some (.directory entries parent) =>
    if name = Path.here then .ok directory
    else if name = Path.above then .ok parent
    else if nameLimit < (Text.utf8 name).length then .error (.system .nameTooLong)
    else
      match entries.lookup name with
      | some inode => .ok inode
      | none => .error (.system .noEntry)
  | _ => .error (.system .notDirectory)

/-- The text of the symbolic link that a name stands for. -/
def linkAt? (fs : FileSystem) (directory : Inode) (name : Name) : Option Text :=
  match (fs.lookup directory name).bind fs.node? with
  | some (.link target) => some target
  | _ => none

/-- The walk through plain directories. -/
def descend (fs : FileSystem) (follow : Bool) : Inode → List Name → Except Cause Stop
  | directory, [] => .ok (.top directory)
  | directory, [name] =>
    match (if follow then fs.linkAt? directory name else none) with
    | some target => .ok (.link directory target [])
    | none => .ok (.entry directory name)
  | directory, name :: rest =>
    match fs.child directory name with
    | .error cause => .error cause
    | .ok inode =>
      match fs.node? inode with
      | some (.directory _ _) => descend fs follow inode rest
      | some (.link target) => .ok (.link directory target rest)
      | _ => .error (.system .notDirectory)

/-- Where a path starts that is found in a directory. -/
def startOf (directory : Inode) (path : Text) : Inode :=
  if Path.isAbsolute path then root else directory

/-- The walk over at most so many symbolic links. -/
def walk (fs : FileSystem) (last : LastLink) : Nat → Inode → Route → Except Cause Place
  | links, directory, route =>
    match fs.descend (last.follows route.slash) directory route.names with
    | .error cause => .error cause
    | .ok (.top reached) => .ok (.top reached)
    | .ok (.entry reached name) => .ok (.entry reached name route.slash)
    | .ok (.link found target rest) =>
      match links with
      | 0 => .error (.system .tooManyLinks)
      | fewer + 1 =>
        walk fs last fewer (startOf found target) ((Route.ofPath target).append rest route.slash)

/-- Whether the system looks at a path at all. A NUL is found before anything else. -/
def checkPath (path : Text) : Except Cause Unit :=
  if '\x00' ∈ path then .error .nulInPath
  else if path = [] then .error (.system .noEntry)
  else if pathLimit ≤ (Text.utf8 path).length then .error (.system .nameTooLong)
  else .ok ()

/-- Where a path leads, seen from the working directory. -/
def placeOf (fs : FileSystem) (last : LastLink) (path : Text) : Except Cause Place :=
  fs.walk last maxLinks (startOf fs.workingDirectory path) (Route.ofPath path)

/-- The node at a place. A slash after a name asks for a directory. -/
def nodeAt (fs : FileSystem) : Place → Except Cause Inode
  | .top directory => .ok directory
  | .entry directory name slash =>
    match fs.child directory name with
    | .error cause => .error cause
    | .ok inode =>
      if slash && !fs.isDirectoryNode inode then .error (.system .notDirectory) else .ok inode

/-- The node that a path leads to, all links followed. -/
def resolve (fs : FileSystem) (path : Text) : Except Cause Inode := do
  checkPath path
  let place ← fs.placeOf .follow path
  fs.nodeAt place

/-- Whether a path leads to a directory. -/
def isDirectory (fs : FileSystem) (path : Text) : Bool :=
  match fs.resolve path with
  | .ok inode => fs.isDirectoryNode inode
  | .error _ => false

/-- The names from the root down to a directory; `fuel` bounds the climb. -/
def climb (fs : FileSystem) : Nat → Inode → List Name → Except Cause (List Name)
  | 0, _, _ => .error (.system .noEntry)
  | fuel + 1, directory, below =>
    if directory = root then .ok below
    else
      match fs.parent? directory with
      | none => .error (.system .noEntry)
      | some parent =>
        match (fs.entries parent).find? fun (_, child) ↦ child = directory with
        | none => .error (.system .noEntry)
        | some (name, _) => climb fs fuel parent (name :: below)

/-- The names from the root down to the working directory. -/
def workingNames (fs : FileSystem) : Except Cause (List Name) :=
  fs.climb fs.nodes.length fs.workingDirectory []

/-- The absolute form of a path in this file system. -/
def absolute (fs : FileSystem) (path : Text) : Except Cause Text :=
  Path.absolute fs.workingNames path

/-! ## Steps of a walk -/

variable {fs : FileSystem} {follow : Bool} {directory inode : Inode} {name : Name}

@[simp] theorem descend_nil : fs.descend follow directory [] = .ok (.top directory) := rfl

/-- A last name is not followed where links are kept. -/
@[simp] theorem descend_keep :
    fs.descend false directory [name] = .ok (.entry directory name) := rfl

/-- A name that stands for a directory is walked through. -/
theorem descend_directory {rest : List Name} {entries : List (Name × Inode)} {parent : Inode}
    (hrest : rest ≠ []) (hchild : fs.child directory name = .ok inode)
    (hnode : fs.node? inode = some (.directory entries parent)) :
    fs.descend follow directory (name :: rest) = fs.descend follow inode rest := by
  cases rest with
  | nil => exact absurd rfl hrest
  | cons next rest => simp [descend, hchild, hnode]

end FileSystem

end LineMigration
