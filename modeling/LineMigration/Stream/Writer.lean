import LineMigration.Fault.Cause

/-!
# Writers

What takes the bytes of a run. `Discard` takes everything and keeps nothing. `Limited` has room
for so many bytes, takes the part of a write that still fits and then refuses. `Buffered` stands
before a `Limited` one and collects up to `Buffered.capacity` bytes: a write that does not fit in
what is free empties the buffer first, and a write as long as the whole buffer then passes it.

`Limited.taken_write` says what a write adds to what was taken, and `Limited.write_eq_none_iff`
when it does not fail; a write of nothing never does.
-/

namespace LineMigration

/-- Something that takes bytes; a write may take a part of them and fail. -/
class Writer (σ : Type) where
  write : σ → Bytes → σ × Option Cause

/-! ## Discarding -/

/-- The writer that takes everything and keeps nothing. -/
inductive Discard where
  | discard

instance : Writer Discard := ⟨fun writer _ ↦ (writer, none)⟩

/-! ## Limited room -/

/-- A writer with the pieces it has taken, newest first, the room it has left (`none` for room
without end) and what it answers to bytes for which there is no room. -/
structure Limited where
  pieces : List Bytes
  room : Option Nat
  refusal : Cause
  deriving DecidableEq

namespace Limited

/-- The writer before its first write. -/
def fresh (room : Option Nat) (refusal : Cause) : Limited := ⟨[], room, refusal⟩

/-- All bytes taken, in their order. -/
def taken (writer : Limited) : Bytes := writer.pieces.reverse.flatten

/-- How many of so many bytes still fit. -/
def share (writer : Limited) (size : Nat) : Nat :=
  match writer.room with
  | none => size
  | some room => min size room

/-- Takes what fits; a write of which a part is left over fails. -/
def write (writer : Limited) (bytes : Bytes) : Limited × Option Cause :=
  let size := writer.share bytes.length
  (⟨bytes.take size :: writer.pieces, writer.room.map (· - size), writer.refusal⟩,
    if size < bytes.length then some writer.refusal else none)

instance : Writer Limited := ⟨write⟩

@[simp] theorem taken_fresh (room : Option Nat) (refusal : Cause) :
    (fresh room refusal).taken = [] := rfl

/-- A write adds the part that fits. -/
@[simp] theorem taken_write (writer : Limited) (bytes : Bytes) :
    (writer.write bytes).1.taken = writer.taken ++ bytes.take (writer.share bytes.length) := by
  simp [taken, write]

/-- A write fails exactly if a part of it does not fit. -/
theorem write_eq_none_iff (writer : Limited) (bytes : Bytes) :
    (writer.write bytes).2 = none ↔ writer.share bytes.length = bytes.length := by
  have hle : writer.share bytes.length ≤ bytes.length := by
    unfold share
    split
    · exact Nat.le_refl _
    · exact Nat.min_le_left _ _
  simp only [write]
  split <;> simp <;> omega

end Limited

/-! ## A buffer in front -/

/-- A buffer before a writer: what the writer has taken and what is pending. -/
structure Buffered where
  target : Limited
  pending : Bytes
  deriving DecidableEq

namespace Buffered

/-- So many bytes fit in the buffer. -/
def capacity : Nat := 8192

/-- The empty buffer before a writer. -/
def before (target : Limited) : Buffered := ⟨target, []⟩

/-- Passes on what is pending. What the writer took leaves the buffer even if it then failed. -/
def flush (writer : Buffered) : Buffered × Option Cause :=
  let (target, failure) := writer.target.write writer.pending
  (⟨target, writer.pending.drop (writer.target.share writer.pending.length)⟩, failure)

/-- Puts bytes into the buffer. -/
def push (writer : Buffered) (bytes : Bytes) : Buffered :=
  { writer with pending := writer.pending ++ bytes }

/-- The free part of the buffer. -/
def spare (writer : Buffered) : Nat := capacity - writer.pending.length

/-- A write after room has been made: as long as the buffer or longer, it passes it. -/
def accept (writer : Buffered) (bytes : Bytes) : Buffered × Option Cause :=
  if capacity ≤ bytes.length then
    let (target, failure) := writer.target.write bytes
    ({ writer with target := target }, failure)
  else (writer.push bytes, none)

/-- Less than what is free is collected, more than that empties the buffer first. -/
def write (writer : Buffered) (bytes : Bytes) : Buffered × Option Cause :=
  if bytes.length < writer.spare then (writer.push bytes, none)
  else if writer.spare < bytes.length then
    match writer.flush with
    | (stopped, some cause) => (stopped, some cause)
    | (emptied, none) => emptied.accept bytes
  else writer.accept bytes

instance : Writer Buffered := ⟨write⟩

/-- The end of the buffer: what is pending is passed on once more, and a failure is not told. -/
def close (writer : Buffered) : Limited := writer.flush.1.target

/-- Closing an empty buffer adds nothing. -/
@[simp] theorem taken_close_before (target : Limited) :
    (before target).close.taken = target.taken := by
  simp [close, flush, before]

end Buffered

end LineMigration
