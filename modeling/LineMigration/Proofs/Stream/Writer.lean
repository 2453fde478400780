import Mathlib.Tactic.Common
import LineMigration.Stream.Writer

/-!
# What writers account for

Two promises that a writer may keep. `Writer.Accounts received` says that a write which does not
fail adds exactly its bytes to what was received, and `Writer.NeverFails usable` that no write
fails. A buffer accounts for what its target has taken and what is pending, whatever the lengths
of the writes, and it never fails before a target that has room without end.

`Limited.taken_of_write` and `Buffered.flush_spec` are the rules that everything else follows
from: a write that does not fail has taken all its bytes. `Limited.Began` follows a writer from the
room that it began with: it has taken what was written to it as far as that fits,
`Limited.firstOf`.
-/

namespace LineMigration

namespace Writer

variable {σ : Type} [Writer σ]

/-- A write that does not fail adds its bytes to what was received, and nothing else. -/
def Accounts (received : σ → Bytes) : Prop :=
  ∀ writer bytes next, Writer.write writer bytes = (next, none) →
    received next = received writer ++ bytes

/-- No write to a usable writer fails, and the writer stays usable. -/
def NeverFails (usable : σ → Prop) : Prop :=
  ∀ writer bytes, usable writer → ∃ next, Writer.write writer bytes = (next, none) ∧ usable next

/-- Being usable is kept by every write. -/
theorem NeverFails.step {usable : σ → Prop} (h : NeverFails usable) (writer : σ) (bytes : Bytes)
    (husable : usable writer) : usable (Writer.write writer bytes).1 := by
  obtain ⟨next, hwrite, hnext⟩ := h writer bytes husable
  rwa [hwrite]

end Writer

/-- What is discarded is always taken. -/
theorem Discard.neverFails : Writer.NeverFails fun _ : Discard ↦ True :=
  fun _ _ _ ↦ ⟨_, rfl, trivial⟩

namespace Limited

variable {writer next : Limited} {bytes : Bytes} {cause : Cause}

/-- A write that does not fail is taken whole. -/
theorem taken_of_write (h : writer.write bytes = (next, none)) :
    next.taken = writer.taken ++ bytes := by
  have hshare : writer.share bytes.length = bytes.length :=
    (write_eq_none_iff writer bytes).1 (by rw [h])
  have htaken := taken_write writer bytes
  rwa [h, hshare, List.take_length] at htaken

theorem accounts : Writer.Accounts taken := fun _ _ _ h ↦ taken_of_write h

/-- Room without end stays so, and takes every write. -/
theorem write_of_room_eq_none (bytes : Bytes) (hroom : writer.room = none) :
    ∃ next, writer.write bytes = (next, none) ∧ next.room = none := by
  refine ⟨(writer.write bytes).1, ?_, ?_⟩
  · have hnone : (writer.write bytes).2 = none :=
      (write_eq_none_iff writer bytes).2 (by simp [share, hroom])
    rw [← hnone]
  · simp [write, hroom]

theorem neverFails : Writer.NeverFails fun writer : Limited ↦ writer.room = none :=
  fun _ bytes hroom ↦ write_of_room_eq_none bytes hroom

/-- The writer has taken at most `limit` bytes, and what is left of them is its room. -/
def Within (limit : Nat) (writer : Limited) : Prop :=
  ∃ room, writer.room = some room ∧ room + writer.taken.length = limit

/-- The room of a fresh writer is its limit. -/
theorem within_fresh (limit : Nat) (refusal : Cause) : (fresh (some limit) refusal).Within limit :=
  ⟨limit, rfl, by simp⟩

/-- No write brings a writer over its limit, whether it fails or not. -/
theorem Within.write {limit : Nat} (h : writer.Within limit) (bytes : Bytes) :
    (writer.write bytes).1.Within limit := by
  obtain ⟨room, hroom, hlimit⟩ := h
  refine ⟨room - min bytes.length room, by simp [Limited.write, share, hroom], ?_⟩
  simp only [taken_write, share, hroom, List.length_append, List.length_take]
  omega

theorem Within.length_le {limit : Nat} (h : writer.Within limit) : writer.taken.length ≤ limit := by
  obtain ⟨room, -, hlimit⟩ := h
  omega

/-- The bytes are no more than there is room for. -/
def Fits (room : Option Nat) (bytes : Bytes) : Prop :=
  ∀ most, room = some most → bytes.length ≤ most

/-- The part of the bytes for which there is room. -/
def firstOf : Option Nat → Bytes → Bytes
  | none, bytes => bytes
  | some most, bytes => bytes.take most

theorem firstOf_of_fits {room : Option Nat} (h : Fits room bytes) : firstOf room bytes = bytes := by
  cases room with
  | none => rfl
  | some most => exact List.take_of_length_le (h most rfl)

/-- More bytes do not change the first ones, once these fill the room. -/
theorem firstOf_append_of_not_fits {room : Option Nat} (h : ¬ Fits room bytes) (more : Bytes) :
    firstOf room (bytes ++ more) = firstOf room bytes := by
  cases room with
  | none => exact absurd (fun _ hmost ↦ nomatch hmost) h
  | some most =>
    have hlt : most < bytes.length := by simpa [Fits] using h
    exact List.take_append_of_le_length (Nat.le_of_lt hlt)

theorem Fits.of_append {room : Option Nat} {more : Bytes} (h : Fits room (bytes ++ more)) :
    Fits room bytes := by
  intro most hmost
  have hle := h most hmost
  rw [List.length_append] at hle
  omega

/-- Where a writer stands that began with so much room: what it has taken fits, and the rest of
the room is left. -/
structure Began (room : Option Nat) (refusal : Cause) (writer : Limited) : Prop where
  refusal : writer.refusal = refusal
  left : writer.room = room.map (· - writer.taken.length)
  fits : Fits room writer.taken

namespace Began

variable {room : Option Nat} {refusal : Cause}

theorem fresh (room : Option Nat) (refusal : Cause) : Began room refusal (fresh room refusal) :=
  ⟨rfl, by cases room <;> simp [Limited.fresh, taken], fun _ _ ↦ Nat.zero_le _⟩

/-- A write adds what still fits, whether it fails or not. -/
theorem taken_write (h : Began room refusal writer) (bytes : Bytes) :
    (writer.write bytes).1.taken = firstOf room (writer.taken ++ bytes) := by
  rw [Limited.taken_write, share, h.left]
  cases room with
  | none => simp [firstOf]
  | some most =>
    have hle := h.fits most rfl
    simp only [Option.map_some, firstOf, List.take_append]
    rw [List.take_of_length_le hle, List.append_cancel_left_eq]
    exact List.take_eq_take_iff.2 (by omega)

/-- A write fails exactly if what was taken and the bytes together do not fit. -/
theorem write_eq_none_iff (h : Began room refusal writer) (bytes : Bytes) :
    (writer.write bytes).2 = none ↔ Fits room (writer.taken ++ bytes) := by
  rw [Limited.write_eq_none_iff, share, h.left]
  cases room with
  | none => simp [Fits]
  | some most =>
    have hle := h.fits most rfl
    simp only [Option.map_some, Fits, Option.some.injEq, forall_eq', List.length_append]
    omega

/-- A write that fails is answered with the refusal. -/
theorem eq_refusal (h : Began room refusal writer) (hwrite : (writer.write bytes).2 = some cause) :
    cause = refusal := by
  simp only [Limited.write] at hwrite
  split at hwrite
  · cases hwrite
    exact h.refusal
  · cases hwrite

theorem write (h : Began room refusal writer) (bytes : Bytes) :
    Began room refusal (writer.write bytes).1 := by
  refine ⟨h.refusal, ?_, ?_⟩
  · rw [h.taken_write]
    simp only [Limited.write, share, h.left]
    cases room with
    | none => rfl
    | some most =>
      have hle := h.fits most rfl
      simp only [Option.map_some, firstOf, Option.some.injEq, List.length_take, List.length_append]
      omega
  · rw [h.taken_write]
    rintro most rfl
    exact List.length_take_le _ _

end Began

end Limited

namespace Buffered

variable {writer next : Buffered} {bytes : Bytes}

/-- What was taken behind the buffer, and what is pending in it. -/
def received (writer : Buffered) : Bytes := writer.target.taken ++ writer.pending

@[simp] theorem received_before (target : Limited) : (before target).received = target.taken := by
  simp [received, before]

@[simp] theorem received_push (bytes : Bytes) :
    (writer.push bytes).received = writer.received ++ bytes := by
  simp [received, push]

/-- A flush that does not fail empties the buffer into the target. -/
theorem flush_spec (h : writer.flush = (next, none)) :
    next.pending = [] ∧ next.target.taken = writer.received := by
  cases hwrite : writer.target.write writer.pending with
  | mk target failure =>
    simp only [flush, hwrite, Prod.mk.injEq] at h
    obtain ⟨rfl, rfl⟩ := h
    have hshare := (Limited.write_eq_none_iff writer.target writer.pending).1 (by rw [hwrite])
    exact ⟨by simp [hshare], Limited.taken_of_write hwrite⟩

/-- A flush loses nothing of what was received. -/
theorem received_flush (h : writer.flush = (next, none)) : next.received = writer.received := by
  obtain ⟨hpending, htaken⟩ := flush_spec h
  simp [received, hpending] at htaken ⊢
  exact htaken

/-- An empty buffer accepts a write whole, or passes it on whole. -/
theorem received_accept (hpending : capacity ≤ bytes.length → writer.pending = [])
    (h : writer.accept bytes = (next, none)) : next.received = writer.received ++ bytes := by
  simp only [accept] at h
  split at h
  · next hlong =>
    cases hwrite : writer.target.write bytes with
    | mk target failure =>
      simp only [hwrite, Prod.mk.injEq] at h
      obtain ⟨rfl, rfl⟩ := h
      simp [received, hpending hlong, Limited.taken_of_write hwrite]
  · cases h
    show (writer.push bytes).received = writer.received ++ bytes
    exact received_push bytes

/-- The buffer accounts for every write, whatever its length against what is free. -/
theorem received_write (h : writer.write bytes = (next, none)) :
    next.received = writer.received ++ bytes := by
  simp only [write] at h
  split at h
  · cases h
    show (writer.push bytes).received = writer.received ++ bytes
    exact received_push bytes
  · split at h
    · split at h
      · cases h
      · next emptied hflush =>
        rw [received_accept (fun _ ↦ (flush_spec hflush).1) h, received_flush hflush]
    · next hfree hspare =>
      refine received_accept ?_ h
      intro hlong
      -- A write as long as the whole buffer that leaves nothing over has found it empty.
      simp only [spare, capacity] at hfree hspare hlong
      exact List.eq_nil_of_length_eq_zero (by omega)

theorem accounts : Writer.Accounts received := fun _ _ _ h ↦ received_write h

/-- What no write changes about the target holds after any write to the buffer. -/
theorem target_write {holds : Limited → Prop}
    (hstep : ∀ target bytes, holds target → holds (target.write bytes).1)
    (h : holds writer.target) (bytes : Bytes) : holds (writer.write bytes).1.target := by
  have hflush : holds writer.flush.1.target := hstep _ _ h
  have haccept : ∀ writer : Buffered, holds writer.target →
      holds (writer.accept bytes).1.target := by
    intro writer h
    simp only [accept]
    split
    · exact hstep _ _ h
    · exact h
  simp only [write]
  split
  · exact h
  · split
    · split
      · next stopped cause hstopped =>
        rw [hstopped] at hflush
        show holds stopped.target
        exact hflush
      · next emptied hemptied =>
        rw [hemptied] at hflush
        show holds (emptied.accept bytes).1.target
        exact haccept _ hflush
    · exact haccept _ h

/-- Before room without end a flush does not fail. -/
theorem flush_of_room_eq_none (hroom : writer.target.room = none) :
    ∃ next, writer.flush = (next, none) ∧ next.target.room = none := by
  obtain ⟨target, hwrite, htarget⟩ :=
    Limited.write_of_room_eq_none writer.pending hroom
  simp only [flush, hwrite]
  exact ⟨_, rfl, htarget⟩

/-- Before room without end no write fails. -/
theorem write_of_room_eq_none (hroom : writer.target.room = none) :
    ∃ next, writer.write bytes = (next, none) ∧ next.target.room = none := by
  have haccept : ∀ writer : Buffered, writer.target.room = none →
      ∃ next, writer.accept bytes = (next, none) ∧ next.target.room = none := by
    intro writer hroom
    simp only [accept]
    split
    · obtain ⟨target, hwrite, htarget⟩ := Limited.write_of_room_eq_none bytes hroom
      rw [hwrite]
      exact ⟨_, rfl, htarget⟩
    · exact ⟨_, rfl, hroom⟩
  simp only [write]
  split
  · exact ⟨_, rfl, hroom⟩
  · split
    · obtain ⟨emptied, hflush, htarget⟩ := flush_of_room_eq_none hroom
      rw [hflush]
      exact haccept emptied htarget
    · exact haccept writer hroom

theorem neverFails : Writer.NeverFails fun writer : Buffered ↦ writer.target.room = none :=
  fun _ _ hroom ↦ write_of_room_eq_none hroom

/-- Closing a buffer before room without end brings everything to the target. -/
theorem taken_close_of_room_eq_none (hroom : writer.target.room = none) :
    writer.close.taken = writer.received := by
  obtain ⟨next, hflush, -⟩ := flush_of_room_eq_none hroom
  rw [close, hflush]
  exact (flush_spec hflush).2

/-- After a flush that did not fail there is nothing left to close. -/
theorem taken_close_of_flush (h : writer.flush = (next, none)) :
    next.close.taken = writer.received := by
  obtain ⟨hpending, htaken⟩ := flush_spec h
  simp [close, flush, hpending, htaken]

end Buffered

end LineMigration
