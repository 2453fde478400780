import LineMigration.FileSystem.Operations
import LineMigration.Stream.Edit

/-!
# Migrating a file in place

The lines of a file go through a table into a scratch file beside it, which then takes the place
of the file. The steps in their order: the absolute path, the refusal of directories, opening,
creating the scratch file, editing through a buffer, passing on what is pending, and the move. A
dry run edits into nothing and ends there. Whatever fails ends the run at once; the scratch file
then stays with what it has taken.

The file is open before the scratch file is created, and read after that: where both are one
node, the file reads as empty. Read `migrate` first.
-/

namespace LineMigration

namespace Migration

/-- Why a migration failed. -/
inductive Failure where
  /-- The path has no absolute form. -/
  | resolve (path : Text) (cause : Cause)
  /-- The path leads to a directory. -/
  | directory (file : Text)
  | openFile (file : Text) (cause : Cause)
  /-- The path names no file beside which a scratch file could stand. -/
  | nameless (file : Text)
  | create (scratch : Text) (cause : Cause)
  /-- The edit of the file stopped. -/
  | edit (file : Text) (failure : Stream.Failure)
  | flush (scratch : Text) (cause : Cause)
  | swap (scratch file : Text) (cause : Cause)

/-- The fault that a failure is told as. -/
def Failure.fault : Failure → Fault
  | resolve path cause => .ofCause cause ("resolve ".toList ++ path)
  | directory file =>
    (Fault.invalidArgument "file".toList (file ++ " is a directory".toList)).withHint
      "Pass the path to a single Jenkinsfile".toList
  | openFile file cause => .ofCause cause ("open ".toList ++ file)
  | nameless file => .io ("Invalid path: ".toList ++ file) (some "resolve temp path".toList)
  | create scratch cause => .ofCause cause ("create ".toList ++ scratch)
  | edit file failure => failure.fault file
  | flush scratch cause => .ofCause cause ("flush ".toList ++ scratch)
  | swap scratch file cause =>
    .ofCause cause ("rename ".toList ++ scratch ++ " -> ".toList ++ file)

/-- What a migration reports: the absolute path, the changed lines, and whether the file was
replaced. -/
structure Result where
  file : Text
  changes : List Change
  applied : Bool
  deriving DecidableEq

/-- What a migration leaves: the file system, the changes that the observer was told, the one at
which it stopped included, and the result or the failure. -/
structure Run where
  fileSystem : FileSystem
  told : List Change
  outcome : Except Failure Result

/-- A run that failed before any line was read. -/
def Run.failed (fs : FileSystem) (failure : Failure) : Run := ⟨fs, [], .error failure⟩

/-- The writer for a node: a buffer before the room that the node has. -/
def writerTo (fs : FileSystem) (inode : Inode) : Buffered :=
  .before (.fresh ((fs.node? inode).bind Node.room) (.system .noSpace))

/-- The scratch file is filled and takes the place of the file. -/
def replaceThrough (table : Table) (observer : Observer) (fs : FileSystem) (source : Inode)
    (file scratch : Text) : Run :=
  match fs.create scratch with
  | .error cause => .failed fs (.create scratch cause)
  | .ok (created, target) =>
    let run := Stream.editAll table observer (.ofBytes (created.contents source))
      (writerTo created target)
    match run.outcome with
    | .error failure =>
      ⟨created.append target run.writer.close.taken, run.changes, .error (.edit file failure)⟩
    | .ok changes =>
      let (flushed, refused) := run.writer.flush
      let written := created.append target flushed.close.taken
      match refused with
      | some cause => ⟨written, run.changes, .error (.flush scratch cause)⟩
      | none =>
        match written.rename scratch file with
        | .error cause => ⟨written, run.changes, .error (.swap scratch file cause)⟩
        | .ok swapped => ⟨swapped, run.changes, .ok ⟨file, changes, true⟩⟩

/-- The edit alone: the changes are found, and nothing is written. -/
def rehearse (table : Table) (observer : Observer) (fs : FileSystem) (source : Inode)
    (file : Text) : Run :=
  let run := Stream.editAll table observer (.ofBytes (fs.contents source)) Discard.discard
  match run.outcome with
  | .error failure => ⟨fs, run.changes, .error (.edit file failure)⟩
  | .ok changes => ⟨fs, run.changes, .ok ⟨file, changes, false⟩⟩

/-- The migration of the file that a path leads to. -/
def migrate (table : Table) (dryRun : Bool) (observer : Observer) (fs : FileSystem)
    (path : Text) : Run :=
  match fs.absolute path with
  | .error cause => .failed fs (.resolve path cause)
  | .ok file =>
    if fs.isDirectory file then .failed fs (.directory file)
    else
      match fs.openRead file with
      | .error cause => .failed fs (.openFile file cause)
      | .ok source =>
        if dryRun then rehearse table observer fs source file
        else
          match Path.sibling file with
          | none => .failed fs (.nameless file)
          | some scratch => replaceThrough table observer fs source file scratch

/-- A dry run leaves the file system as it is. -/
theorem fileSystem_rehearse (table : Table) (observer : Observer) (fs : FileSystem)
    (source : Inode) (file : Text) : (rehearse table observer fs source file).fileSystem = fs := by
  unfold rehearse
  dsimp only
  split <;> rfl

end Migration

end LineMigration
