import LineMigration.Text.Utf8

/-!
# Lines

A line ends with the octet 0x0A, and only the last line of a stream may lack it. `splitLines`
cuts octets after each 0x0A and keeps them all (`flatten_splitLines`). Within the text of a line,
`Text.body` leaves out the whole trailing run of line feeds and carriage returns.
-/

namespace LineMigration

/-- The octet that ends a line. -/
def lineFeed : UInt8 := 0x0A

/-- The lines that end with a line feed, each with it, and what follows the last one. -/
def splitLines : Bytes → List Bytes × Bytes
  | [] => ([], [])
  | octet :: rest =>
    let (lines, unfinished) := splitLines rest
    if octet = lineFeed then ([octet] :: lines, unfinished)
    else
      match lines with
      | [] => ([], octet :: unfinished)
      | line :: others => ((octet :: line) :: others, unfinished)

/-- Cutting loses nothing. -/
theorem flatten_splitLines (octets : Bytes) :
    (splitLines octets).1.flatten ++ (splitLines octets).2 = octets := by
  induction octets with
  | nil => rfl
  | cons octet rest ih =>
    simp only [splitLines]
    split
    · simp [ih]
    · split
      · next h => simpa [h] using ih
      · next h => simpa [h] using ih

/-! ## The text of a line -/

/-- Line feed or carriage return. -/
def isLineBreak (c : Char) : Bool := c = '\n' || c = '\r'

/-- The line without its whole trailing run of line feeds and carriage returns. -/
def Text.body (line : Text) : Text := trimEnd isLineBreak line

/-- The trailing run that `body` leaves out. -/
def Text.ending (line : Text) : Text := trailing isLineBreak line

/-- Body and ending together are the line. -/
theorem Text.body_append_ending (line : Text) : Text.body line ++ Text.ending line = line :=
  trimEnd_append_trailing _ _

end LineMigration
