import LineMigration.Proofs.Stream.Course
import LineMigration.Proofs.Stream.Delivery

/-!
# The first thing that fails

Reading, the observer and the writer can each stop a run, and the first of them does. `FirstStop`
names the lines that come before the first one which cannot be read or which the observer refuses,
without a look at the writer; they are determined by the input (`FirstStop.unique`), and there
always are such lines (`exists_firstStop`). `editAll_prefix` says what a run leaves before a writer
with limited room: what it has taken is the beginning of those lines as they are edited, and the
run fails at the line where the room ends, or else where reading or the observer fails.
-/

namespace LineMigration.Stream

variable {table : Table} {observer : Observer} {input : Bytes} {limit : Option (Nat × Cause)}
  {before passed lines : List Text} {line : Text} {stop other : Option Failure}

/-! ## Lines before a stop -/

/-- The first lines of the input can be read as these texts, and the observer admits them. -/
structure Passes (table : Table) (observer : Observer) (input : Bytes)
    (limit : Option (Nat × Cause)) (lines : List Text) : Prop where
  read : ∀ number line, lines[number]? = some line →
    readingAt input limit number = some (.ok line)
  admitted : AdmitsAll table observer lines

/-- The lines `before` pass, and after them the input ends or the next line fails: it cannot be
read, or the observer refuses it. -/
inductive FirstStop (table : Table) (observer : Observer) (input : Bytes)
    (limit : Option (Nat × Cause)) (before : List Text) : Option Failure → Prop where
  | finished : Passes table observer input limit before →
      readingAt input limit before.length = none →
      FirstStop table observer input limit before none
  | failed {failing : Except Cause Text} {failure : Failure} :
      Passes table observer input limit before →
      readingAt input limit before.length = some failing →
      FailsAt table observer before failing failure →
      FirstStop table observer input limit before (some failure)

/-- The text of a line that was read. -/
def textOf : Option (Except Cause Text) → List Text
  | none => []
  | some (.error _) => []
  | some (.ok line) => [line]

theorem FirstStop.passes (h : FirstStop table observer input limit before stop) :
    Passes table observer input limit before := by
  cases h with
  | finished hpasses => exact hpasses
  | failed hpasses => exact hpasses

/-- One more line passes if it can be read and is admitted. -/
theorem Passes.append_line (h : Passes table observer input limit before)
    (hread : readingAt input limit before.length = some (.ok line))
    (hadmits : Admits table observer (changesFrom table 0 before) before.length line) :
    Passes table observer input limit (before ++ [line]) := by
  refine ⟨?_, h.admitted.append_line hadmits⟩
  intro number asked hasked
  by_cases hlt : number < before.length
  · rw [List.getElem?_append_left hlt] at hasked
    exact h.read number asked hasked
  · obtain rfl : number = before.length := by
      have hbound := (List.getElem?_eq_some_iff.1 hasked).1
      simp only [List.length_append, List.length_singleton] at hbound
      omega
    rw [List.getElem?_concat_length] at hasked
    cases hasked
    exact hread

/-- Of two lists of lines that pass, the shorter one is the beginning of the other. -/
theorem Passes.isPrefix (h : Passes table observer input limit passed)
    (hlines : Passes table observer input limit lines) (hle : passed.length ≤ lines.length) :
    passed <+: lines := by
  refine List.prefix_iff_getElem?.2 ?_
  intro number hnumber
  -- A line that passes is the reading of that line of the input.
  have hpassed := h.read number _ (List.getElem?_eq_getElem hnumber)
  have hline := hlines.read number _ (List.getElem?_eq_getElem (Nat.lt_of_lt_of_le hnumber hle))
  rw [hpassed, Option.some.injEq, Except.ok.injEq] at hline
  rw [List.getElem?_eq_getElem (Nat.lt_of_lt_of_le hnumber hle), hline]

/-- Lines that pass come before any stop. -/
theorem FirstStop.isPrefix_of_passes (h : FirstStop table observer input limit before stop)
    (hlines : Passes table observer input limit lines) : lines <+: before := by
  rcases Nat.le_total lines.length before.length with hle | hle
  · exact hlines.isPrefix h.passes hle
  · obtain ⟨rest, rfl⟩ := h.passes.isPrefix hlines hle
    cases rest with
    | nil => simp
    | cons line rest =>
      -- The line at the stop would have passed.
      have hread := hlines.read before.length line (by simp)
      cases h with
      | finished _ hend => simp [hread] at hend
      | failed _ hfailing hfails =>
        rw [hread] at hfailing
        cases hfailing
        cases hfails with
        | refused happly hfault =>
          rw [hlines.admitted before line rest rfl _ happly] at hfault
          cases hfault

/-- The input determines where the first stop is, and which it is. -/
theorem FirstStop.unique (h : FirstStop table observer input limit before stop)
    (hother : FirstStop table observer input limit lines other) :
    lines = before ∧ other = stop := by
  obtain rfl : lines = before :=
    (h.isPrefix_of_passes hother.passes).eq_of_length_le
      (hother.isPrefix_of_passes h.passes).length_le
  refine ⟨rfl, ?_⟩
  cases h with
  | finished _ hend =>
    cases hother with
    | finished => rfl
    | failed _ hfailing => simp [hend] at hfailing
  | failed _ hfailing hfails =>
    cases hother with
    | finished _ hend => simp [hend] at hfailing
    | failed _ hfailing' hfails' =>
      cases hfailing.symm.trans hfailing'
      cases hfails with
      | unreadable =>
        cases hfails'
        rfl
      | refused happly hfault =>
        cases hfails' with
        | refused happly' hfault' =>
          cases happly.symm.trans happly'
          cases hfault.symm.trans hfault'
          rfl

/-! ## Where a run stops -/

section Reader

variable {reader : Reader} (hreader : reader.Delivers input limit)
include hreader

/-- The lines that a run has passed are those of the input that pass. -/
theorem passes_of_lines {rest : List (Except Cause Text)}
    (hlines : reader.lines = before.map .ok ++ rest) (hadmits : AdmitsAll table observer before) :
    Passes table observer input limit before := by
  refine ⟨fun number line hline ↦ hreader.readingAt ?_, hadmits⟩
  have hlt := (List.getElem?_eq_some_iff.1 hline).1
  rw [hlines, List.getElem?_append_left (by simpa using hlt), List.getElem?_map, hline]
  rfl

/-- The line after those that a run has passed is the one that comes next in the input. -/
theorem readingAt_of_lines {failing : Except Cause Text} {rest : List (Except Cause Text)}
    (hlines : reader.lines = before.map .ok ++ failing :: rest) :
    readingAt input limit before.length = some failing :=
  hreader.readingAt (by simp [hlines])

theorem firstStop_of_finished (hlines : reader.lines = before.map .ok)
    (hadmits : AdmitsAll table observer before) :
    FirstStop table observer input limit before none :=
  .finished (passes_of_lines hreader (by rw [hlines, List.append_nil]) hadmits)
    (hreader.readingAt_length hlines)

theorem firstStop_of_failing {failing : Except Cause Text} {rest : List (Except Cause Text)}
    {failure : Failure} (hlines : reader.lines = before.map .ok ++ failing :: rest)
    (hadmits : AdmitsAll table observer before)
    (hfails : FailsAt table observer before failing failure) :
    FirstStop table observer input limit before (some failure) :=
  .failed (passes_of_lines hreader hlines hadmits) (readingAt_of_lines hreader hlines) hfails

end Reader

/-- Every input has a first stop: the one at which a run stops that writes nothing. -/
theorem exists_firstStop (table : Table) (observer : Observer) (input : Bytes)
    (limit : Option (Nat × Cause)) :
    ∃ before stop, FirstStop table observer input limit before stop := by
  have hreader := Reader.delivers_inBlocks 1 input limit
  have hstopped : Stopped table observer Discard.discard (Reader.inBlocks 1 input limit).lines
      (editAll table observer (.inBlocks 1 input limit) Discard.discard) := editAll_stopped _
  generalize editAll table observer _ Discard.discard = run at hstopped
  cases hfailure : run.failure with
  | none =>
    obtain ⟨before, hreached, hlines⟩ := hstopped.reached hfailure
    exact ⟨before, none, firstStop_of_finished hreader hlines hreached.admitsAll⟩
  | some failure =>
    obtain ⟨before, calls, failing, rest, hreached, hlines, hfails⟩ :=
      hstopped.failsAt Discard.neverFails trivial hfailure
    exact ⟨before, _, firstStop_of_failing hreader hlines hreached.admitsAll hfails⟩

variable {room : Option Nat} {refusal : Cause}

/-- What a run has written so far is all lines as they are edited, and those fit. -/
theorem began_of_reached {calls : List (Sighting Limited)} {writer : Limited}
    (h : Reached table observer (.fresh room refusal) before calls writer) :
    Limited.Began room refusal writer ∧ writer.taken = Text.utf8 (editedLines table before) ∧
      Limited.Fits room (Text.utf8 (editedLines table before)) := by
  have hbegan : Limited.Began room refusal writer :=
    h.holds _ (fun _ bytes hbegan ↦ hbegan.write bytes) (.fresh room refusal)
  have htaken : writer.taken = Text.utf8 (editedLines table before) := by
    simpa using h.received Limited.accounts
  exact ⟨hbegan, htaken, htaken ▸ hbegan.fits⟩

/-- A run comes to the first stop if everything before it fits; otherwise it stops at a line
before it, the first one that does not fit. -/
theorem editAll_cases (table : Table) (observer : Observer) {reader : Reader}
    (hreader : reader.Delivers input limit) (room : Option Nat) (refusal : Cause) :
    let run := editAll table observer reader (Limited.fresh room refusal)
    let bytes := fun lines ↦ Text.utf8 (editedLines table lines)
    (∃ before stop, FirstStop table observer input limit before stop ∧
      Limited.Fits room (bytes before) ∧ run.writer.taken = bytes before ∧ run.failure = stop ∧
      run.changes =
        changesFrom table 0 (before ++ textOf (readingAt input limit before.length))) ∨
    ∃ passed line, Passes table observer input limit (passed ++ [line]) ∧
      Limited.Fits room (bytes passed) ∧ ¬ Limited.Fits room (bytes (passed ++ [line])) ∧
      run.writer.taken = Limited.firstOf room (bytes (passed ++ [line])) ∧
      run.failure = some (.write refusal) ∧
      run.changes = changesFrom table 0 (passed ++ [line]) := by
  intro run bytes
  have hstopped : Stopped table observer (Limited.fresh room refusal) reader.lines run :=
    editAll_stopped _
  generalize run = run at hstopped
  cases hstopped with
  | @finished before calls writer hreached hlines =>
    obtain ⟨-, htaken, hfits⟩ := began_of_reached hreached
    refine Or.inl ⟨before, none, firstStop_of_finished hreader hlines hreached.admitsAll,
      hfits, htaken, rfl, ?_⟩
    rw [hreader.readingAt_length hlines, textOf, List.append_nil]
    exact hreached.changes
  | @unreadable before calls writer cause rest hreached hlines =>
    obtain ⟨-, htaken, hfits⟩ := began_of_reached hreached
    refine Or.inl ⟨before, _,
      firstStop_of_failing hreader hlines hreached.admitsAll .unreadable,
      hfits, htaken, rfl, ?_⟩
    rw [readingAt_of_lines hreader hlines, textOf, List.append_nil]
    exact hreached.changes
  | @refused before calls writer line new fault rest hreached hlines happly hfault =>
    obtain ⟨-, htaken, hfits⟩ := began_of_reached hreached
    refine Or.inl ⟨before, _, firstStop_of_failing hreader hlines hreached.admitsAll
      (.refused happly (hreached.changes ▸ hfault)), hfits, htaken, rfl, ?_⟩
    rw [readingAt_of_lines hreader hlines, textOf]
    exact hreached.changes_append_line line
  | @unwritten before calls writer stopped line cause rest hreached hlines hadmits hwrite =>
    obtain ⟨hbegan, htaken, hfits⟩ := began_of_reached hreached
    have hbytes : writer.taken ++ Text.utf8 (table.edited line) = bytes (before ++ [line]) := by
      simp only [bytes, editedLines_append_line, Text.utf8_append, htaken]
    have hcause : (writer.write (Text.utf8 (table.edited line))).2 = some cause :=
      congrArg Prod.snd hwrite
    have hstopped : stopped.taken = Limited.firstOf room (bytes (before ++ [line])) := by
      rw [← hbytes, ← hbegan.taken_write]
      exact congrArg (fun result ↦ result.1.taken) hwrite.symm
    refine Or.inr ⟨before, line, ?_, hfits, ?_, hstopped, ?_, hreached.changes_append_line line⟩
    · exact (passes_of_lines hreader hlines hreached.admitsAll).append_line
        (readingAt_of_lines hreader hlines) (hreached.changes ▸ hadmits)
    · rw [← hbytes, ← hbegan.write_eq_none_iff, hcause]
      exact Option.some_ne_none cause
    · rw [hbegan.eq_refusal hcause]
      rfl

/-- Before a writer with so much room, a run takes the lines before the first stop as they are
edited, as far as there is room. It comes to the end exactly if nothing stops it and all fits. The
changes told are those of the lines up to the one at which it stopped, that one included if it was
read; and it stops where the room ends, or else at the first stop. -/
theorem editAll_prefix (table : Table) (observer : Observer) {reader : Reader}
    (hreader : reader.Delivers input limit) (room : Option Nat) (refusal : Cause) :
    let run := editAll table observer reader (Limited.fresh room refusal)
    let bytes := fun lines ↦ Text.utf8 (editedLines table lines)
    (∃ before stop, FirstStop table observer input limit before stop) ∧
    ∀ before stop, FirstStop table observer input limit before stop →
      run.writer.taken = Limited.firstOf room (bytes before) ∧
      ((∃ changes, run.outcome = .ok changes) ↔ stop = none ∧ Limited.Fits room (bytes before)) ∧
      (Limited.Fits room (bytes before) → run.failure = stop ∧
        run.changes =
          changesFrom table 0 (before ++ textOf (readingAt input limit before.length))) ∧
      (¬ Limited.Fits room (bytes before) → run.failure = some (.write refusal) ∧
        ∃ passed line rest, before = passed ++ line :: rest ∧
          Limited.Fits room (bytes passed) ∧ ¬ Limited.Fits room (bytes (passed ++ [line])) ∧
          run.changes = changesFrom table 0 (passed ++ [line])) := by
  intro run bytes
  refine ⟨exists_firstStop table observer input limit, ?_⟩
  intro before stop hstop
  rw [← Run.failure_eq_none_iff]
  rcases editAll_cases table observer hreader room refusal with
    ⟨lines, other, hother, hfits, htaken, hfailure, hchanges⟩ |
    ⟨passed, line, hpasses, hfits, hfull, htaken, hfailure, hchanges⟩
  · obtain ⟨rfl, rfl⟩ := hstop.unique hother
    refine ⟨?_, ?_, fun _ ↦ ⟨hfailure, hchanges⟩, fun hnot ↦ absurd hfits hnot⟩
    · rw [Limited.firstOf_of_fits hfits]
      exact htaken
    · exact ⟨fun hnone ↦ ⟨hfailure.symm.trans hnone, hfits⟩, fun h ↦ hfailure.trans h.1⟩
  · obtain ⟨rest, rfl⟩ := hstop.isPrefix_of_passes hpasses
    -- What does not fit of the beginning does not fit of the whole.
    have hbytes : bytes (passed ++ [line] ++ rest) =
        bytes (passed ++ [line]) ++ Text.utf8 (editedLines table rest) := by
      simp [bytes, editedLines]
    have hnot : ¬ Limited.Fits room (bytes (passed ++ [line] ++ rest)) := by
      rw [hbytes]
      exact fun hall ↦ hfull hall.of_append
    refine ⟨?_, ?_, fun hall ↦ absurd hall hnot, fun _ ↦ ⟨hfailure, passed, line, rest, ?_, hfits,
      hfull, hchanges⟩⟩
    · rw [hbytes, Limited.firstOf_append_of_not_fits hfull]
      exact htaken
    · refine ⟨fun hnone ↦ ?_, fun h ↦ absurd h.2 hnot⟩
      exact absurd (hfailure.symm.trans hnone) (Option.some_ne_none _)
    · simp

/-- A reader that fails within the third line, and a writer that has room for a part of the second
one: the room ends first. -/
theorem editAll_prefix_second_line :
    let table : Table := [⟨['a'], ['x', 'y']⟩]
    let input : Bytes := [97, 10, 99, 10, 97, 10]
    let failed : Cause := .other ['r']
    let refusal : Cause := .system .noSpace
    let run := editAll table .silent (.inBlocks 2 input (some (5, failed)))
      (Limited.fresh (some 4) refusal)
    FirstStop table .silent input (some (5, failed)) [['a', '\n'], ['c', '\n']]
      (some (.read 2 failed)) ∧
    run.writer.taken = [120, 121, 10, 99] ∧ run.failure = some (.write refusal) ∧
    ∃ passed line rest, [['a', '\n'], ['c', '\n']] = passed ++ line :: rest ∧
      run.changes = changesFrom table 0 (passed ++ [line]) := by
  intro table input failed refusal run
  have hreader := Reader.delivers_inBlocks 2 input (some (5, failed))
  have hlines : (Reader.inBlocks 2 input (some (5, failed))).lines =
      [['a', '\n'], ['c', '\n']].map .ok ++ [.error failed] := rfl
  have hstop : FirstStop table .silent input (some (5, failed)) [['a', '\n'], ['c', '\n']]
      (some (.read 2 failed)) :=
    firstStop_of_failing hreader hlines (fun _ _ _ _ _ _ ↦ rfl) .unreadable
  have hnot : ¬ Limited.Fits (some 4)
      (Text.utf8 (editedLines table [['a', '\n'], ['c', '\n']])) := by
    intro hfits
    exact absurd (hfits 4 rfl) (by decide)
  obtain ⟨-, hall⟩ := editAll_prefix table .silent hreader (some 4) refusal
  obtain ⟨htaken, -, -, hfull⟩ := hall _ _ hstop
  obtain ⟨hfailure, passed, line, rest, hsplit, -, -, hchanges⟩ := hfull hnot
  exact ⟨hstop, htaken, hfailure, passed, line, rest, hsplit, hchanges⟩

end LineMigration.Stream
