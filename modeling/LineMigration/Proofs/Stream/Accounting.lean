import LineMigration.Proofs.Stream.Replay
import LineMigration.Proofs.Stream.WholeText

/-!
# What is told of a run, and when

A change is told of a line exactly if a key of the table stands in that line as it was read,
whatever the table makes of it. Where nothing fails, the changes are in the order of their lines,
one for each such line, and each is told when the writer has received the lines before it as they
are edited, and nothing of the line itself (`editAll_tells_each_change`). The step is
`Reached.received_at_call`: one more line adds at most one call, made before the line is written.
-/

namespace LineMigration.Stream

variable {table : Table}

/-! ## Numbers of lines -/

/-- The changes of lines are in the order of the lines. -/
theorem pairwise_line_lt_changesFrom (number : Nat) (lines : List Text) :
    (changesFrom table number lines).Pairwise (·.line < ·.line) := by
  induction lines generalizing number with
  | nil => exact List.Pairwise.nil
  | cons line rest ih =>
    rw [changesFrom]
    split
    · exact ih (number + 1)
    · refine List.pairwise_cons.2 ⟨?_, ih (number + 1)⟩
      intro change hchange
      obtain ⟨passed, other, new, -, -, rfl⟩ := mem_changesFrom_iff.1 hchange
      show number < number + 1 + passed
      omega

/-- A line has a change exactly if a key stands in it. -/
theorem exists_change_iff (lines : List Text) (number : Nat) :
    (∃ change ∈ changesFrom table 0 lines, change.line = number) ↔
      ∃ line, lines[number]? = some line ∧ ∃ entry ∈ table, entry.key <:+: line := by
  constructor
  · rintro ⟨change, hchange, rfl⟩
    obtain ⟨passed, line, new, hline, happly, rfl⟩ := mem_changesFrom_iff.1 hchange
    exact ⟨line, by simpa [changeOf] using hline, Table.exists_apply_iff.1 ⟨new, happly⟩⟩
  · rintro ⟨line, hline, hentry⟩
    obtain ⟨new, happly⟩ := Table.exists_apply_iff.2 hentry
    exact ⟨changeOf (0 + number) line new, mem_changesFrom_iff.2 ⟨number, line, new, hline,
      happly, rfl⟩, Nat.zero_add number⟩

/-! ## The moment of a call -/

variable {σ : Type} [Writer σ] {observer : Observer} {start : σ} {before : List Text}
  {calls : List (Sighting σ)} {writer : σ}

/-- At each call for a line, the writer has received the lines before it as they are edited. -/
theorem Reached.received_at_call {received : σ → Bytes} (haccounts : Writer.Accounts received)
    (h : Reached table observer start before calls writer) :
    ∀ call ∈ calls, call.change.line < before.length ∧ received call.writer =
      received start ++ Text.utf8 (editedLines table (before.take call.change.line)) := by
  induction h with
  | start =>
    intro call hcall
    cases hcall
  | @line before calls writer next line hreached _ _ ih =>
    intro call hcall
    rw [List.length_append, List.length_singleton]
    rcases List.mem_append.1 hcall with hearlier | hhere
    · obtain ⟨hlt, hreceived⟩ := ih call hearlier
      refine ⟨by omega, ?_⟩
      rw [hreceived, List.take_append_of_le_length (by omega)]
    · cases happly : table.apply line with
      | none => simp [callsAt, happly] at hhere
      | some new =>
        simp only [callsAt, happly, List.mem_singleton] at hhere
        subst hhere
        refine ⟨Nat.lt_succ_self _, ?_⟩
        show received writer =
          received start ++ Text.utf8 (editedLines table ((before ++ [line]).take before.length))
        rw [List.take_left, hreached.received haccounts]

/-! ## The run -/

/-- Where nothing fails, a run over valid UTF-8 gives one change for each line in which a key of
the table stands, the lines being cut after each octet 0x0A and counted from zero: the changes
are in the order of their lines, and there is no other. Each holds the bodies of the line before
and after. They are the calls of the observer in their order, and at the call for a line the
writer has received the lines before it as they are edited. -/
theorem editAll_tells_each_change (hobserver : ∀ told change, observer told change = none)
    {received : σ → Bytes} {usable : σ → Prop} (haccounts : Writer.Accounts received)
    (hnever : Writer.NeverFails usable) (hstart : usable start) {reader : Reader} {text : Text}
    (hbytes : reader.blocks.flatten = Text.utf8 text) (hend : reader.failure = none) :
    let run := editAll table observer reader start
    ∃ (lines : List Text) (changes : List Change),
      octetLines reader.blocks.flatten = lines.map Text.utf8 ∧ run.outcome = .ok changes ∧
      (∀ number, (∃ change ∈ changes, change.line = number) ↔
        ∃ line, lines[number]? = some line ∧ ∃ entry ∈ table, entry.key <:+: line) ∧
      changes.Pairwise (·.line < ·.line) ∧
      (∀ change ∈ changes, ∃ line, lines[change.line]? = some line ∧
        change.old = Text.body line ∧ change.new = Text.body (table.edited line)) ∧
      run.sightings.map (·.change) = changes ∧
      ∀ call ∈ run.sightings, received call.writer =
        received start ++ Text.utf8 (editedLines table (lines.take call.change.line)) := by
  obtain ⟨calls, writer, hreached, hrun⟩ :=
    @editAll_of_neverFails table _ _ _ _ _ hnever hobserver _ _
      (Reader.lines_of_utf8 hbytes hend) hstart
  simp only [hrun]
  refine ⟨Text.lines text, changesFrom table 0 (Text.lines text), ?_, ?_, exists_change_iff _,
    pairwise_line_lt_changesFrom 0 _, ?_, hreached.changes, fun call hcall ↦
      (hreached.received_at_call haccounts call hcall).2⟩
  · rw [hbytes, octetLines_utf8]
  · rw [← hreached.changes]
  · intro change hchange
    obtain ⟨number, line, new, hline, happly, rfl⟩ := mem_changesFrom_iff.1 hchange
    obtain ⟨-, rfl⟩ := Table.apply_eq_some_iff.1 happly
    exact ⟨line, by simpa [changeOf] using hline, rfl, rfl⟩

/-- An entry that maps a key to itself, before a buffer: the first line and the last one, which has
no ending, are told, and the empty line between them is counted. -/
theorem editAll_tells_each_change_identity :
    let table : Table := [⟨['a'], ['a']⟩]
    let reader : Reader := .ofBytes (Text.utf8 ['a', '\n', '\n', 'b', 'a'])
    let run := editAll table .silent reader (Buffered.before (.fresh none (.system .noSpace)))
    ∃ (lines : List Text) (changes : List Change),
      octetLines reader.blocks.flatten = lines.map Text.utf8 ∧ run.outcome = .ok changes ∧
      changes.map (·.line) = [0, 2] ∧
      ∀ call ∈ run.sightings, Buffered.received call.writer =
        [] ++ Text.utf8 (editedLines table (lines.take call.change.line)) := by
  intro table reader run
  have hbytes : reader.blocks.flatten = Text.utf8 ['a', '\n', '\n', 'b', 'a'] := by
    simp [reader, Reader.ofBytes]
  obtain ⟨lines, changes, hlines, houtcome, -, -, -, hcalls, hreceived⟩ :=
    @editAll_tells_each_change table _ _ .silent _ (fun _ _ ↦ rfl) _ _ Buffered.accounts
      Buffered.neverFails
      (show (Buffered.before (.fresh none (.system .noSpace))).target.room = none from rfl)
      reader _ hbytes rfl
  refine ⟨lines, changes, hlines, houtcome, ?_, hreceived⟩
  rw [← hcalls]
  rfl

end LineMigration.Stream
