import LineMigration.Proofs.Stream.WholeText

/-!
# Buffers that overflow

Before a writer without room a buffer keeps all it is given, and a write fails as soon as it cannot:
where the pieces written so far are longer than the buffer, or where one of them is as long as the
buffer and so would pass it (`Overflows`). What did not overflow is still pending, and is refused by
the flush unless it is empty.

`Buffered.write_eq_none_iff` is the step and `Reached.not_overflows` what it gives for a run;
`Stopped.before_full` says how every run ends.
-/

namespace LineMigration

namespace Limited

variable {writer : Limited} {bytes : Bytes}

/-- A writer that is within no bytes at all has taken none. -/
theorem Within.taken_eq_nil (h : writer.Within 0) : writer.taken = [] :=
  List.eq_nil_of_length_eq_zero (Nat.le_zero.1 h.length_le)

/-- It takes only a write of nothing. -/
theorem Within.write_eq_none_iff (h : writer.Within 0) :
    (writer.write bytes).2 = none ↔ bytes = [] := by
  obtain ⟨room, hroom, hlimit⟩ := h
  obtain rfl : room = 0 := by omega
  rw [Limited.write_eq_none_iff, share, hroom]
  simp [eq_comm]

end Limited

namespace Buffered

variable {writer : Buffered} {bytes : Bytes}

/-- The pieces are longer than a buffer, or one of them is as long. -/
def Overflows (pieces : List Bytes) : Prop :=
  capacity < pieces.flatten.length ∨ ∃ piece ∈ pieces, capacity ≤ piece.length

/-- One more piece does not overflow the buffer if the ones before it do not, it fits behind them,
and it is not as long as the buffer. -/
theorem not_overflows_concat {pieces : List Bytes} {piece : Bytes} :
    ¬ Overflows (pieces ++ [piece]) ↔ ¬ Overflows pieces ∧
      pieces.flatten.length + piece.length ≤ capacity ∧ piece.length < capacity := by
  simp only [Overflows, not_or, not_exists, not_and, Nat.not_lt, Nat.not_le, List.flatten_append,
    List.flatten_singleton, List.length_append, List.mem_append, List.mem_singleton]
  constructor
  · rintro ⟨hsum, hpieces⟩
    exact ⟨⟨by omega, fun other hmem ↦ hpieces other (.inl hmem)⟩, hsum, hpieces piece (.inr rfl)⟩
  · rintro ⟨⟨-, hpieces⟩, hsum, hpiece⟩
    refine ⟨hsum, fun other hmem ↦ ?_⟩
    rcases hmem with hmem | rfl
    · exact hpieces other hmem
    · exact hpiece

/-- Where the first pieces overflow the buffer, more of them do. -/
theorem Overflows.append {pieces : List Bytes} (h : Overflows pieces) (more : List Bytes) :
    Overflows (pieces ++ more) := by
  rcases h with hsum | ⟨piece, hmem, hlong⟩
  · refine .inl ?_
    rw [List.flatten_append, List.length_append]
    omega
  · exact .inr ⟨piece, List.mem_append_left _ hmem, hlong⟩

/-- Pieces that overflow the buffer are not all empty. -/
theorem Overflows.flatten_ne_nil {pieces : List Bytes} (h : Overflows pieces) :
    pieces.flatten ≠ [] := by
  intro hnil
  rcases h with hsum | ⟨piece, hmem, hlong⟩
  · simp [hnil] at hsum
  · simp [List.flatten_eq_nil_iff.1 hnil piece hmem, capacity] at hlong

/-- Before a writer without room, a flush fails if anything is pending. -/
theorem flush_eq_none_iff (h : writer.target.Within 0) :
    writer.flush.2 = none ↔ writer.pending = [] :=
  h.write_eq_none_iff

/-- An emptied buffer refuses what is as long as itself. -/
theorem accept_eq_none_iff (h : writer.target.Within 0) :
    (writer.accept bytes).2 = none ↔ bytes.length < capacity := by
  unfold accept
  split
  · next hlong =>
    have hne : bytes ≠ [] := by
      rintro rfl
      simp [capacity] at hlong
    have hrefused : (writer.target.write bytes).2 ≠ none := fun hnone ↦
      hne (h.write_eq_none_iff.1 hnone)
    simpa [Nat.not_lt.2 hlong] using hrefused
  · next hshort => simpa using hshort

/-- Before a writer without room, a write does not fail exactly if it fits behind what is pending
and is not as long as the buffer. -/
theorem write_eq_none_iff (h : writer.target.Within 0) (hfits : writer.pending.length ≤ capacity) :
    (writer.write bytes).2 = none ↔
      writer.pending.length + bytes.length ≤ capacity ∧ bytes.length < capacity := by
  unfold write
  split
  · next hfree =>
    simp only [spare] at hfree
    simp only [true_iff]
    omega
  · next hfree =>
    split
    · next hspare =>
      simp only [spare] at hspare
      have hlong : ¬ (writer.pending.length + bytes.length ≤ capacity ∧
          bytes.length < capacity) := by omega
      rw [iff_false_right hlong]
      -- The write does not fit, so it fails: what is pending is refused, or the write itself.
      split
      · simp
      · next emptied hflush =>
        have hnothing : writer.pending = [] := (flush_eq_none_iff h).1 (by rw [hflush])
        have hemptied : writer.flush.1.target.Within 0 := h.write writer.pending
        rw [hflush] at hemptied
        rw [accept_eq_none_iff hemptied]
        simp only [hnothing, List.length_nil] at hspare
        omega
    · next hspare =>
      rw [accept_eq_none_iff h]
      simp only [spare] at hfree hspare
      omega

end Buffered

namespace Stream

open LineMigration.Buffered

variable {table : Table} {observer : Observer} {target : Limited} {before texts : List Text}
  {calls : List (Sighting Buffered)} {writer : Buffered}

/-- The writes of a run over lines, one for each. -/
def writes (table : Table) (lines : List Text) : List Bytes :=
  lines.map fun line ↦ Text.utf8 (table.edited line)

theorem writes_append (table : Table) (lines more : List Text) :
    writes table (lines ++ more) = writes table lines ++ writes table more :=
  List.map_append

/-- Together they are the lines as they are edited. -/
theorem flatten_writes (table : Table) (lines : List Text) :
    (writes table lines).flatten = Text.utf8 (editedLines table lines) := by
  induction lines with
  | nil => rfl
  | cons line rest ih =>
    simp only [writes, editedLines, List.map_cons, List.flatten_cons, Text.utf8_append] at ih ⊢
    rw [ih]

/-- Lines overflow the buffer if as they are edited they are longer than it, or one is as long. -/
theorem overflows_writes_iff (table : Table) (lines : List Text) :
    Overflows (writes table lines) ↔ capacity < (Text.utf8 (editedLines table lines)).length ∨
      ∃ line ∈ lines, capacity ≤ (Text.utf8 (table.edited line)).length := by
  rw [Overflows, flatten_writes]
  simp [writes]

/-- Before a writer without room, all that a run has written is pending. -/
theorem Reached.pending_eq (hfull : target.Within 0)
    (h : Reached table observer (Buffered.before target) before calls writer) :
    writer.target.Within 0 ∧ writer.pending = (writes table before).flatten := by
  have htarget : writer.target.Within 0 :=
    h.holds (fun writer ↦ writer.target.Within 0)
      (fun _ bytes hwriter ↦ target_write (fun _ bytes h ↦ h.write bytes) hwriter bytes) hfull
  have hreceived := h.received Buffered.accounts
  rw [received_before, hfull.taken_eq_nil, List.nil_append, Buffered.received,
    htarget.taken_eq_nil, List.nil_append] at hreceived
  exact ⟨htarget, by rw [hreceived, flatten_writes]⟩

/-- The step of a run: the next write fails exactly if with it the lines overflow the buffer. -/
theorem Reached.write_eq_none_iff (hfull : target.Within 0)
    (h : Reached table observer (Buffered.before target) before calls writer)
    (hbefore : ¬ Overflows (writes table before)) (line : Text) :
    (Writer.write writer (Text.utf8 (table.edited line))).2 = none ↔
      ¬ Overflows (writes table (before ++ [line])) := by
  obtain ⟨htarget, hpending⟩ := h.pending_eq hfull
  have hfits : writer.pending.length ≤ capacity := by
    rw [hpending]
    exact Nat.not_lt.1 fun hlong ↦ hbefore (.inl hlong)
  show (writer.write (Text.utf8 (table.edited line))).2 = none ↔ _
  rw [Buffered.write_eq_none_iff htarget hfits, hpending, writes_append,
    show writes table [line] = [Text.utf8 (table.edited line)] from rfl, not_overflows_concat,
    and_iff_right hbefore]

/-- What was written did not overflow the buffer. -/
theorem Reached.not_overflows (hfull : target.Within 0)
    (h : Reached table observer (Buffered.before target) before calls writer) :
    ¬ Overflows (writes table before) := by
  induction h with
  | start => simp [writes, Overflows]
  | @line before calls writer next line hreached _ hwrite ih =>
    exact (hreached.write_eq_none_iff hfull ih line).1 (by rw [hwrite])

/-- Before a writer without room, a run over lines fails at a write if they overflow the buffer, and
else passes them all; the flush after it then fails unless there is nothing to pass on. -/
theorem Stopped.before_full {run : Run Buffered}
    (hobserver : ∀ told change, observer told change = none) (hfull : target.Within 0)
    (h : Stopped table observer (Buffered.before target) (texts.map .ok) run) :
    (Overflows (writes table texts) ∧ ∃ cause, run.failure = some (.write cause)) ∨
      (¬ Overflows (writes table texts) ∧ run.failure = none ∧
        (run.writer.flush.2 = none ↔ (writes table texts).flatten = [])) := by
  cases h with
  | @finished before calls writer hreached hlines =>
    obtain rfl : texts = before := (List.map_inj_right fun _ _ h ↦ Except.ok.inj h).1 hlines
    obtain ⟨htarget, hpending⟩ := hreached.pending_eq hfull
    exact .inr ⟨hreached.not_overflows hfull, rfl, hpending ▸ flush_eq_none_iff htarget⟩
  | unreadable _ hlines => exact absurd hlines ne_map_ok_of_unreadable
  | refused _ _ _ hfault => simp [hobserver] at hfault
  | @unwritten before calls writer stopped line cause rest hreached hlines _ hwrite =>
    obtain ⟨first, others, rfl, hfirst, hothers⟩ := List.map_eq_append_iff.1 hlines
    obtain ⟨next, more, rfl, hnext, -⟩ := List.map_eq_cons_iff.1 hothers
    obtain rfl : first = before := (List.map_inj_right fun _ _ h ↦ Except.ok.inj h).1 hfirst
    obtain rfl : next = line := Except.ok.inj hnext
    have hfails : Overflows (writes table (first ++ [next])) := by
      by_contra hnot
      have hnone := (hreached.write_eq_none_iff hfull (hreached.not_overflows hfull) next).2 hnot
      rw [hwrite] at hnone
      cases hnone
    refine .inl ⟨?_, cause, rfl⟩
    have hoverflows := hfails.append (writes table more)
    rwa [← writes_append, List.append_assoc] at hoverflows

end Stream

end LineMigration
