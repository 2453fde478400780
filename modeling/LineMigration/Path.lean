import LineMigration.Fault.Cause

/-!
# Paths

Paths as text, before any look at a file system. A path is its pieces between slashes: `pieces`
and `join` are inverse (`join_pieces`). `absolute` puts a path below the working directory and
takes out empty pieces and single dots, but no double dots, as what they mean depends on links.
`sibling` is the name of the scratch file beside a file.
-/

namespace LineMigration

/-- The name of an entry of a directory. -/
abbrev Name := Text

namespace Path

/-- The pieces between the slashes of a path; a path without a slash is one piece. -/
def pieces : Text → List Text
  | [] => [[]]
  | c :: rest =>
    if c = '/' then [] :: pieces rest
    else
      match pieces rest with
      | [] => [[c]]
      | piece :: others => (c :: piece) :: others

/-- Pieces with a slash between each two. -/
def join : List Text → Text
  | [] => []
  | [piece] => piece
  | piece :: others => piece ++ '/' :: join others

/-- Whether the path starts at the root. -/
def isAbsolute (path : Text) : Bool := path.head? = some '/'

/-- Whether the path starts with two slashes and not with three. -/
def startsDoubled : Text → Bool
  | '/' :: '/' :: '/' :: _ => false
  | '/' :: '/' :: _ => true
  | _ => false

/-- Whether the path ends in a slash. -/
def endsInSlash (path : Text) : Bool := path.getLast? = some '/'

/-- A piece that names nothing: an empty one, or a single dot. -/
def isBlank (piece : Text) : Bool := piece = [] || piece = ['.']

/-- The two dots that name the directory above. -/
def above : Name := ['.', '.']

/-! ## Pieces -/

theorem pieces_ne_nil (path : Text) : pieces path ≠ [] := by
  cases path with
  | nil => simp [pieces]
  | cons c rest => simp only [pieces]; split <;> (try split) <;> simp

/-- A slash is followed by pieces of its own. -/
theorem join_cons_of_ne_nil {piece : Text} {others : List Text} (h : others ≠ []) :
    join (piece :: others) = piece ++ '/' :: join others := by
  cases others with
  | nil => exact absurd rfl h
  | cons => rfl

/-- The pieces of a path, joined, are the path. -/
theorem join_pieces (path : Text) : join (pieces path) = path := by
  induction path with
  | nil => rfl
  | cons c rest ih =>
    simp only [pieces]
    split
    · next hslash => simp [join_cons_of_ne_nil (pieces_ne_nil rest), ih, hslash]
    · cases hrest : pieces rest with
      | nil => exact absurd hrest (pieces_ne_nil rest)
      | cons piece others =>
        rw [hrest] at ih
        cases others with
        | nil => simpa [join] using ih
        | cons next others => simpa [join] using ih

/-! ## Absolute paths -/

/-- A path from the root whose names are not blank. -/
structure Absolute where
  /-- The path starts with two slashes, which the system may treat in a way of its own. -/
  doubled : Bool
  names : List Name
  /-- A slash follows the last name. -/
  slash : Bool
  deriving DecidableEq

/-- The written form. The root itself takes no slash after it. -/
def Absolute.text (path : Absolute) : Text :=
  (if path.doubled then ['/', '/'] else ['/']) ++ join path.names
    ++ if path.slash && !path.names.isEmpty then ['/'] else []

/-- The pieces of a path that are not blank. -/
def properNames (path : Text) : List Name := (pieces path).filter (!isBlank ·)

/-- The absolute form of a path, where `workingDirectory` holds the names from the root down. It
fails only for the empty path, and for a relative one where the working directory is not
known. -/
def absolute (workingDirectory : Except Cause (List Name)) (path : Text) : Except Cause Text :=
  if path = [] then .error .emptyPath
  else if isAbsolute path then
    .ok (Absolute.text ⟨startsDoubled path, properNames path, endsInSlash path⟩)
  else
    workingDirectory.map fun names ↦
      Absolute.text ⟨false, names ++ properNames path, endsInSlash path⟩

/-! ## Scratch files -/

/-- The pieces before the file name and the file name, if the path names a file: blank pieces
after the name and before it do not count, but the first piece stays, and double dots are no
file name. -/
def splitFile (path : Text) : Option (List Text × Name) :=
  match pieces path with
  | [] => none
  | first :: rest =>
    let proper := trimEnd isBlank rest
    match proper.getLast? with
    | some name =>
      if name = above then none else some (first :: trimEnd isBlank proper.dropLast, name)
    | none => if isBlank first || first = above then none else some ([], first)

/-- What the name of a scratch file has after the name of the file. -/
def scratchEnding : Text := ['-', 'n', 'e', 'w']

/-- The path of the scratch file beside a file. -/
def sibling (path : Text) : Option Text :=
  (splitFile path).map fun (directory, name) ↦ join (directory ++ [name ++ scratchEnding])

end Path

end LineMigration
