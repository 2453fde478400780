import LineMigration.Text.Line
import LineMigration.Fault.Cause

/-!
# Readers

A reader delivers its bytes in blocks and then ends, or fails. `Reader.lines` is what reading it
line by line gives: the text of each line, or the cause where a line is not UTF-8 or the reader
failed before the line was complete. `gather_eq_splitLines` says that the blocks do not matter.
-/

namespace LineMigration

/-- Blocks of bytes in their order, and the failure that comes after them, if one does. -/
structure Reader where
  blocks : List Bytes
  failure : Option Cause

namespace Reader

/-- The reader that delivers bytes in one block and ends. -/
def ofBytes (bytes : Bytes) : Reader := ⟨[bytes], none⟩

/-- Bytes cut into blocks of one size, the last one shorter; `fuel` bounds their number. -/
def cut (size : Nat) : Nat → Bytes → List Bytes
  | 0, bytes => [bytes]
  | fuel + 1, bytes =>
    if bytes.length ≤ size then [bytes] else bytes.take size :: cut size fuel (bytes.drop size)

/-- The reader of bytes in blocks of one size. With a limit it delivers that many bytes at most
and then fails with a cause, also where the bytes are fewer. -/
def inBlocks (size : Nat) (bytes : Bytes) : Option (Nat × Cause) → Reader
  | none => ⟨cut size bytes.length bytes, none⟩
  | some (limit, cause) => ⟨cut size bytes.length (bytes.take limit), some cause⟩

/-- Cutting loses nothing. -/
theorem flatten_cut (size fuel : Nat) (bytes : Bytes) : (cut size fuel bytes).flatten = bytes := by
  induction fuel generalizing bytes with
  | zero => simp [cut]
  | succ fuel ih =>
    simp only [cut]
    split
    · simp
    · simp [ih]

/-- The first lines of a block, the piece between, and the lines after it. -/
def joinLines (lines : List Bytes) (piece : Bytes) : List Bytes × Bytes → List Bytes × Bytes
  | ([], last) => (lines, piece ++ last)
  | (line :: others, last) => (lines ++ (piece ++ line) :: others, last)

/-- The complete lines of all blocks and what follows the last one. A line may go on over any
number of blocks. -/
def gather : List Bytes → List Bytes × Bytes
  | [] => ([], [])
  | block :: rest => joinLines (splitLines block).1 (splitLines block).2 (gather rest)

/-- The text of a complete line. -/
def decodeLine (line : Bytes) : Except Cause Text :=
  match Utf8.decode line with
  | some text => .ok text
  | none => .error .invalidUtf8

/-- What reading gives after the complete lines. -/
def ending (reader : Reader) (last : Bytes) : List (Except Cause Text) :=
  match reader.failure with
  | some cause => [.error cause]
  | none => if last.isEmpty then [] else [decodeLine last]

/-- The lines in their order, each with its line feed. After an error nothing is read. -/
def lines (reader : Reader) : List (Except Cause Text) :=
  let (complete, last) := gather reader.blocks
  complete.map decodeLine ++ reader.ending last

/-! ## Blocks -/

/-- Lines of two parts are joined at the piece between them. -/
theorem splitLines_append (xs ys : Bytes) :
    splitLines (xs ++ ys) = joinLines (splitLines xs).1 (splitLines xs).2 (splitLines ys) := by
  induction xs with
  | nil =>
    simp only [List.nil_append, splitLines]
    cases splitLines ys with
    | mk lines last => cases lines <;> rfl
  | cons octet rest ih =>
    simp only [List.cons_append, splitLines, ih]
    cases hy : splitLines ys with
    | mk others last =>
      cases hr : splitLines rest with
      | mk lines piece => cases others <;> cases lines <;> simp only [joinLines] <;> split <;> rfl

/-- How bytes are cut into blocks does not matter for the lines. -/
theorem gather_eq_splitLines (blocks : List Bytes) : gather blocks = splitLines blocks.flatten := by
  induction blocks with
  | nil => rfl
  | cons block rest ih => simp [gather, ih, splitLines_append]

/-- Readers of the same bytes and the same end give the same lines. -/
theorem lines_eq_of_flatten_eq {reader other : Reader}
    (hbytes : reader.blocks.flatten = other.blocks.flatten)
    (hfailure : reader.failure = other.failure) : reader.lines = other.lines := by
  simp [lines, ending, gather_eq_splitLines, hbytes, hfailure]

end Reader

end LineMigration
