import LineMigration.Path

/-!
# File systems

A file system is a list of nodes and a working directory; the number of a node is its `Inode`.
Directories give names to inodes, so a file may have several names or none. Nodes are never
taken away: one without a name is out of reach. A device takes bytes, keeps none of them for
reading, and may have room for so many only.

What is left out:
- permissions, owners and mount points: no operation is refused for them, so a move within one
  directory is never refused that names a file at both ends or at the first alone;
- limits of disks and quotas: a regular file takes all bytes, and only a device has an end;
- what devices give to a reader: reading one gives the end at once, as `/dev/null` does, whereas
  `/dev/full` gives zero octets without end, and a run that reads it does not end.

The lemmas after each operation say what it does to `node?`, `lookup` and `contents`.
-/

namespace LineMigration

/-- The number of a node. -/
abbrev Inode := Nat

/-- What a name can stand for. -/
inductive Node where
  | file (bytes : Bytes)
  /-- Names with what they stand for, and the directory above. -/
  | directory (entries : List (Name × Inode)) (parent : Inode)
  /-- A symbolic link with its text. -/
  | link (target : Text)
  /-- `capacity` is what it takes in all, `none` for everything; `taken` is what it took. -/
  | device (capacity : Option Nat) (taken : Bytes)
  deriving DecidableEq

namespace Node

/-- Whether the node is a directory. -/
def isDirectory : Node → Bool
  | directory _ _ => true
  | _ => false

/-- What reading gives. -/
def contents : Node → Bytes
  | file bytes => bytes
  | _ => []

/-- The node as opening it for writing leaves it: a file without content. -/
def truncated : Node → Node
  | file _ => file []
  | node => node

/-- The node with more bytes written to it. -/
def extended (more : Bytes) : Node → Node
  | file bytes => file (bytes ++ more)
  | device capacity taken => device capacity (taken ++ more)
  | node => node

/-- How many more bytes the node takes; `none` if it takes all. -/
def room : Node → Option Nat
  | device (some capacity) taken => some (capacity - taken.length)
  | _ => none

end Node

/-- Nodes by number, and the working directory. -/
structure FileSystem where
  nodes : List Node
  workingDirectory : Inode
  deriving DecidableEq

namespace FileSystem

/-- The root directory. -/
def root : Inode := 0

/-- The empty file system: a root directory without entries. -/
def empty : FileSystem := ⟨[.directory [] root], root⟩

/-- The node of a number. -/
def node? (fs : FileSystem) (inode : Inode) : Option Node := fs.nodes[inode]?

/-- The entries of a directory; a node of another kind has none. -/
def entries (fs : FileSystem) (inode : Inode) : List (Name × Inode) :=
  match fs.node? inode with
  | some (.directory entries _) => entries
  | _ => []

/-- What a name stands for in a directory. -/
def lookup (fs : FileSystem) (directory : Inode) (name : Name) : Option Inode :=
  (fs.entries directory).lookup name

/-- Whether a number is that of a directory. -/
def isDirectoryNode (fs : FileSystem) (inode : Inode) : Bool :=
  match fs.node? inode with
  | some node => node.isDirectory
  | none => false

/-- What reading a node gives. -/
def contents (fs : FileSystem) (inode : Inode) : Bytes :=
  match fs.node? inode with
  | some node => node.contents
  | none => []

/-- The directory above a directory. -/
def parent? (fs : FileSystem) (inode : Inode) : Option Inode :=
  match fs.node? inode with
  | some (.directory _ parent) => some parent
  | _ => none

/-- Whether a directory is still part of the tree. A directory that gave way to another has no
name any more, and nothing can be added to it. -/
def isAttached (fs : FileSystem) (inode : Inode) : Bool :=
  inode = root ||
    match fs.parent? inode with
    | some parent => (fs.entries parent).any fun (_, child) ↦ child = inode
    | none => false

/-! ## Changes of one node -/

/-- The file system with one node changed. -/
def modify (fs : FileSystem) (inode : Inode) (change : Node → Node) : FileSystem :=
  { fs with nodes := fs.nodes.modify inode change }

/-- The file system with one more node, and its number. -/
def add (fs : FileSystem) (node : Node) : FileSystem × Inode :=
  ({ fs with nodes := fs.nodes ++ [node] }, fs.nodes.length)

/-- Entries with `name` standing for `inode`: in the place that the name has, else at the end. -/
def setEntry (name : Name) (inode : Inode) : List (Name × Inode) → List (Name × Inode)
  | [] => [(name, inode)]
  | (other, kept) :: rest =>
    if other = name then (name, inode) :: rest else (other, kept) :: setEntry name inode rest

/-- Entries without `name`. -/
def eraseEntry (name : Name) (entries : List (Name × Inode)) : List (Name × Inode) :=
  entries.filter (·.1 ≠ name)

/-- A node with its entries changed, if it is a directory. -/
def mapEntries (change : List (Name × Inode) → List (Name × Inode)) : Node → Node
  | .directory entries parent => .directory (change entries) parent
  | node => node

/-- Lets a name of a directory stand for an inode. -/
def setName (fs : FileSystem) (directory : Inode) (name : Name) (inode : Inode) : FileSystem :=
  fs.modify directory (mapEntries (setEntry name inode))

/-- Takes a name out of a directory. -/
def clearName (fs : FileSystem) (directory : Inode) (name : Name) : FileSystem :=
  fs.modify directory (mapEntries (eraseEntry name))

/-- Writes more bytes to a node. -/
def append (fs : FileSystem) (inode : Inode) (bytes : Bytes) : FileSystem :=
  fs.modify inode (Node.extended bytes)

/-! ## What the changes do -/

variable {fs : FileSystem} {inode other directory : Inode} {name : Name}

@[simp] theorem node?_modify_same (change : Node → Node) :
    (fs.modify inode change).node? inode = (fs.node? inode).map change := by
  simp [node?, modify]

@[simp] theorem node?_modify_of_ne (change : Node → Node) (h : inode ≠ other) :
    (fs.modify inode change).node? other = fs.node? other := by
  simp [node?, modify, h]

/-- A new node is found by its number. -/
@[simp] theorem node?_add_same (node : Node) :
    (fs.add node).1.node? (fs.add node).2 = some node := by
  simp [node?, add]

@[simp] theorem lookup_setEntry_same (entries : List (Name × Inode)) :
    (setEntry name inode entries).lookup name = some inode := by
  induction entries with
  | nil => simp [setEntry]
  | cons entry rest ih =>
    obtain ⟨found, kept⟩ := entry
    simp only [setEntry]
    split
    · simp
    · next h => simp [List.lookup_cons, beq_eq_false_iff_ne.2 (Ne.symm h), ih]

/-- Other names stand for what they stood for. -/
theorem lookup_setEntry_of_ne {asked : Name} (h : asked ≠ name) (entries : List (Name × Inode)) :
    (setEntry name inode entries).lookup asked = entries.lookup asked := by
  induction entries with
  | nil => simp [setEntry, List.lookup_cons, beq_eq_false_iff_ne.2 h]
  | cons entry rest ih =>
    obtain ⟨found, kept⟩ := entry
    simp only [setEntry]
    split
    · next heq => simp [List.lookup_cons, heq, beq_eq_false_iff_ne.2 h]
    · simp [List.lookup_cons, ih]

/-- A name that was taken out stands for nothing. -/
@[simp] theorem lookup_eraseEntry_same (entries : List (Name × Inode)) :
    (eraseEntry name entries).lookup name = none := by
  simp [eraseEntry, List.lookup_eq_none_iff]
  intro found kept _ hne heq
  exact hne heq.symm

/-- Other names stay. -/
theorem lookup_eraseEntry_of_ne {asked : Name} (h : asked ≠ name) (entries : List (Name × Inode)) :
    (eraseEntry name entries).lookup asked = entries.lookup asked := by
  induction entries with
  | nil => rfl
  | cons entry rest ih =>
    obtain ⟨found, kept⟩ := entry
    by_cases hfound : found = name
    · simp [eraseEntry, List.lookup_cons, hfound, beq_eq_false_iff_ne.2 h] at ih ⊢
      exact ih
    · simp [eraseEntry, hfound, List.lookup_cons] at ih ⊢
      split <;> simp [ih]

end FileSystem

end LineMigration
