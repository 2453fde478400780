import LineMigration.FileSystem.Basic

/-!
# Listings

Everything below a directory as a list: the path of each name seen from that directory and what
the name stands for. Symbolic links are listed with their text and not followed. The list is in
the order of the paths, character by character.
-/

namespace LineMigration

/-- What a listing says of a name. -/
inductive Item where
  | file (bytes : Bytes)
  | directory
  | link (target : Text)
  deriving DecidableEq

namespace FileSystem

/-- The item that a node is listed as; what a device holds is not shown. -/
def itemOf : Node → Item
  | .file bytes => .file bytes
  | .directory _ _ => .directory
  | .link target => .link target
  | .device _ _ => .file []

/-- A name below a path; at the top the name is the path. -/
def below (above : Text) (name : Name) : Text :=
  if above.isEmpty then name else above ++ '/' :: name

/-- Everything below a directory whose own path is `above`, at most `depth` levels deep. -/
def listFrom (fs : FileSystem) : Nat → Text → Inode → List (Text × Item)
  | 0, _, _ => []
  | depth + 1, above, directory =>
    (fs.entries directory).flatMap fun (name, inode) ↦
      match fs.node? inode with
      | none => []
      | some node => (below above name, itemOf node) :: listFrom fs depth (below above name) inode

/-- Everything below a directory, in the order of the paths. -/
def listing (fs : FileSystem) (directory : Inode) : List (Text × Item) :=
  (fs.listFrom fs.nodes.length [] directory).mergeSort fun a b ↦ !decide (b.1 < a.1)

end FileSystem

end LineMigration
