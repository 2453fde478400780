import LineMigration.Proofs.Migration.Device
import LineMigration.Proofs.Stream.Overflow

/-!
# Devices without room

Where the path of the scratch file leads to a device that has no room left, it is the buffer that
decides which step of a migration is told of it. As long as the edited lines fit in the buffer, none
of them being as long as the buffer itself, nothing reaches the device before the flush; otherwise a
write fails. Only if there is nothing to write does the migration succeed (`migrate_full_device`).
-/

namespace LineMigration

/-- What a fault says was being done. -/
def Fault.context? (fault : Fault) : Option Text :=
  match fault.details with
  | .object fields =>
    match fields.lookup "context".toList with
    | some (.string doing) => some doing
    | _ => none
  | _ => none

@[simp] theorem Fault.context?_ofCause (cause : Cause) (context : Text) :
    (Fault.ofCause cause context).context? = some context := rfl

namespace Migration

open LineMigration.Stream LineMigration.FileSystem

/-- A run fails, and its fault says that this was being done. -/
def Run.FailsDoing (run : Run) (context : Text) : Prop :=
  ∃ failure, run.outcome = .error failure ∧ failure.fault.context? = some context

/-- A run that fails names one thing that was being done. -/
theorem Run.failsDoing_iff {run : Run} {failure : Failure} {doing context : Text}
    (houtcome : run.outcome = .error failure) (hdoing : failure.fault.context? = some doing) :
    run.FailsDoing context ↔ context = doing := by
  constructor
  · rintro ⟨found, hfound, hcontext⟩
    obtain rfl : failure = found := Except.error.inj (houtcome.symm.trans hfound)
    exact Option.some.inj (hcontext.symm.trans hdoing)
  · rintro rfl
    exact ⟨failure, houtcome, hdoing⟩

variable {table : Table} {observer : Observer} {fs created : FileSystem}
  {device source target : Inode} {file scratch path asked : Text}
  {text : Text} {taken : Bytes} {capacity : Nat}

/-- A replacement through a node without room fails at a write if the lines overflow the buffer,
else at the flush if there is anything to pass on, and else it succeeds if the move does. -/
theorem replaceThrough_cases (table : Table)
    (hobserver : ∀ told change, observer told change = none)
    (hcreate : fs.create scratch = .ok (created, target))
    (hroom : (created.node? target).bind Node.room = some 0)
    (hlines : linesOf created source = (Text.lines text).map .ok)
    (hmoves : ∀ bytes, ∃ swapped, (created.append target bytes).rename scratch file = .ok swapped) :
    let run := replaceThrough table observer fs source file scratch
    let pieces := writes table (Text.lines text)
    (Buffered.Overflows pieces ∧ ∃ cause, run.outcome = .error (.edit file (.write cause))) ∨
      (¬ Buffered.Overflows pieces ∧ pieces.flatten ≠ [] ∧
        ∃ cause, run.outcome = .error (.flush scratch cause)) ∨
      (pieces.flatten = [] ∧ ∃ result, run.outcome = .ok result) := by
  have hfull : (Limited.fresh (some 0) (.system .noSpace)).Within 0 := Limited.within_fresh 0 _
  have hstopped : Stopped table observer (writerTo created target) (linesOf created source)
      (editAll table observer (.ofBytes (created.contents source)) (writerTo created target)) :=
    editAll_stopped _
  unfold replaceThrough
  simp only [hcreate]
  generalize editAll table observer (.ofBytes (created.contents source))
    (writerTo created target) = run at hstopped
  rw [hlines, writerTo, hroom] at hstopped
  rcases hstopped.before_full hobserver hfull with
    ⟨hoverflows, cause, hfailure⟩ | ⟨hfits, hfailure, hflush⟩
  · exact .inl ⟨hoverflows, cause, by simp [Run.failure_eq_some_iff.1 hfailure]⟩
  · have hok := hstopped.outcome_eq_ok hfailure
    refine .inr ?_
    cases hwriter : run.writer.flush with
    | mk flushed refused =>
      rw [hwriter] at hflush
      cases refused with
      | some cause => exact .inl ⟨hfits, by simpa using hflush, cause, by simp [hok]⟩
      | none =>
        obtain ⟨swapped, hswapped⟩ := hmoves flushed.close.taken
        exact .inr ⟨hflush.1 rfl, ⟨file, run.changes, true⟩, by simp [hok, hswapped]⟩

/-- Where a path or its absolute form reads a file, and the scratch path resolves, the absolute form
resolves to the file. -/
theorem resolve_of_reads {bytes : Bytes} (hfs : fs.WellFormed)
    (habsolute : fs.absolute path = .ok file) (hscratch : Path.sibling file = some scratch)
    (hasked : asked = path ∨ asked = file) (hold : fs.read? asked = some bytes)
    (hdevice : fs.resolve scratch = .ok device) :
    ∃ source, fs.resolve file = .ok source ∧ fs.node? source = some (.file bytes) := by
  obtain ⟨source, hresolve, hnode⟩ := node?_of_read? hold
  rcases hasked with rfl | rfl
  · have hplain := isDirectoryNode_eq_false hnode rfl
    have hcheck := checkPath_of_sibling hfs habsolute hscratch hresolve hplain
      (checkPath_of_resolve hdevice)
    exact ⟨source, resolve_absolute hfs habsolute hcheck hresolve hplain, hnode⟩
  · exact ⟨source, hresolve, hnode⟩

/-- Where the scratch path leads to a device without room, a migration of valid text fails at a
write exactly if the edited text is longer than the buffer or an edited line is as long as it. If
not, it fails at the flush exactly if the edited text is not empty, and it succeeds exactly if that
is empty. -/
theorem migrate_full_device (hfs : fs.WellFormed) (habsolute : fs.absolute path = .ok file)
    (hscratch : Path.sibling file = some scratch) (hasked : asked = path ∨ asked = file)
    (hold : fs.read? asked = some (Text.utf8 text)) (hdevice : fs.resolve scratch = .ok device)
    (hnode : fs.node? device = some (.device (some capacity) taken))
    (hfull : capacity ≤ taken.length) (hobserver : ∀ told change, observer told change = none) :
    let run := migrate table false observer fs path
    let edited := Text.utf8 (editedLines table (Text.lines text))
    let overflows := Buffered.capacity < edited.length ∨
      ∃ line ∈ Text.lines text, Buffered.capacity ≤ (Text.utf8 (table.edited line)).length
    (run.FailsDoing ("write rewritten ".toList ++ file) ↔ overflows) ∧
      (run.FailsDoing ("flush ".toList ++ scratch) ↔ ¬ overflows ∧ edited ≠ []) ∧
      ((∃ result, run.outcome = .ok result) ↔ edited = []) := by
  intro run edited overflows
  obtain ⟨source, hfile, hsource⟩ :=
    resolve_of_reads hfs habsolute hscratch hasked hold hdevice
  have hplain := isDirectoryNode_eq_false hsource rfl
  obtain ⟨beside, directory, name, hbeside, hsite⟩ := site_of_resolve hfs habsolute hfile hplain
  obtain rfl : scratch = beside := Option.some.inj (hscratch.symm.trans hbeside)
  have hcreate := create_of_resolve hfs hdevice (isDirectoryNode_eq_false hnode rfl)
  obtain ⟨hcreated, hlines⟩ := created_device hsource hnode
  have hroom : ((fs.modify device .truncated).node? device).bind Node.room = some 0 := by
    simp [hcreated, Node.room, Nat.sub_eq_zero_of_le hfull]
  have hrun : run = replaceThrough table observer fs source file scratch :=
    migrate_eq habsolute hfile hplain hscratch false
  have hmoves := rename_of_create hfs hsite hfile hcreate
  have hcases := replaceThrough_cases table hobserver hcreate hroom hlines hmoves
  have hempty : overflows → edited ≠ [] := fun h ↦ by
    rw [show edited = (writes table (Text.lines text)).flatten from (flatten_writes ..).symm]
    exact ((overflows_writes_iff ..).2 h).flatten_ne_nil
  have hdiffer : "flush ".toList ++ scratch ≠ "write rewritten ".toList ++ file := by simp
  simp only [← hrun, overflows_writes_iff, flatten_writes] at hcases
  have hnot_ok : ∀ {failure}, run.outcome = .error failure →
      ¬ ∃ result, run.outcome = .ok result := by
    rintro failure hfailure ⟨result, hok⟩
    rw [hfailure] at hok
    cases hok
  rcases hcases with ⟨hoverflows, cause, hout⟩ | ⟨hfits, hne, cause, hout⟩ | ⟨hnil, result, hout⟩
  · have hfails : ∀ {context}, run.FailsDoing context ↔ _ :=
      Run.failsDoing_iff hout (Fault.context?_ofCause cause _)
    refine ⟨iff_of_true (hfails.2 rfl) hoverflows, iff_of_false ?_ ?_, ?_⟩
    · exact fun h ↦ hdiffer (hfails.1 h)
    · exact fun h ↦ h.1 hoverflows
    · exact iff_of_false (hnot_ok hout) (hempty hoverflows)
  · have hfails : ∀ {context}, run.FailsDoing context ↔ _ :=
      Run.failsDoing_iff hout (Fault.context?_ofCause cause _)
    refine ⟨iff_of_false ?_ hfits, iff_of_true (hfails.2 rfl) ⟨hfits, hne⟩, ?_⟩
    · exact fun h ↦ hdiffer (hfails.1 h).symm
    · exact iff_of_false (hnot_ok hout) hne
  · have hnever : ∀ context, ¬ run.FailsDoing context := by
      rintro context ⟨failure, hfailure, -⟩
      exact hnot_ok hfailure ⟨result, hout⟩
    refine ⟨iff_of_false (hnever _) ?_, iff_of_false (hnever _) ?_, ?_⟩
    · exact fun h ↦ hempty h hnil
    · exact fun h ↦ h.2 hnil
    · exact iff_of_true ⟨result, hout⟩ hnil

/-- One line that is as long as the buffer is refused at the write, one that is shorter by a byte at
the flush, and an empty file is migrated. -/
theorem migrate_full_device_one_line :
    let fs : Nat → FileSystem := fun size ↦
      ⟨[.directory [(['f'], 1), (['f', '-', 'n', 'e', 'w'], 2), (['d'], 3)] root,
        .file (Text.utf8 (List.replicate size 'a')), .link ['d'], .device (some 0) []], root⟩
    let run : Nat → Run := fun size ↦ migrate [] false .silent (fs size) ['f']
    (fs 8192).WellFormed ∧ (fs 8191).WellFormed ∧ (fs 0).WellFormed ∧
      (run 8192).FailsDoing ("write rewritten ".toList ++ ['/', 'f']) ∧
      (run 8191).FailsDoing ("flush ".toList ++ ['/', 'f', '-', 'n', 'e', 'w']) ∧
      ∃ result, (run 0).outcome = .ok result := by
  intro fs run
  have hfs : ∀ size, (fs size).WellFormed := fun size ↦ of_decide_eq_true rfl
  have hends := fun size ↦ @migrate_full_device [] .silent (fs size) 3 ['/', 'f']
    ['/', 'f', '-', 'n', 'e', 'w'] ['f'] ['f'] (List.replicate size 'a') [] 0 (hfs size) rfl rfl
    (.inl rfl) rfl rfl rfl (Nat.le_refl 0) fun _ _ ↦ rfl
  have hlines : ∀ size ≠ 0, Text.lines (List.replicate size 'a') = [List.replicate size 'a'] :=
    fun size hsize ↦ Text.lines_of_not_mem (by simp) (by simpa using hsize)
  have hlength : ∀ size, (Text.utf8 (List.replicate size 'a')).length = size := by
    intro size
    simp [Text.utf8, List.length_flatMap, show 'a'.utf8Size = 1 from rfl]
  refine ⟨hfs _, hfs _, hfs _, (hends 8192).1.2 (.inr ?_), (hends 8191).2.1.2 ?_,
    (hends 0).2.2.2 rfl⟩
  · rw [hlines 8192 (by decide)]
    exact ⟨_, List.mem_singleton_self _, by rw [Table.edited_nil, hlength]; exact Nat.le_refl _⟩
  · have hedited : ∀ line, editedLines [] [line] = line := fun line ↦ by simp [editedLines]
    rw [hlines 8191 (by decide), hedited]
    refine ⟨?_, fun hnil ↦ ?_⟩
    · rintro (hlong | ⟨line, hmem, hlong⟩)
      · rw [hlength] at hlong
        exact absurd hlong (by decide)
      · rw [List.mem_singleton.1 hmem, Table.edited_nil, hlength] at hlong
        exact absurd hlong (by decide)
    · have hzero := hlength 8191
      rw [hnil] at hzero
      cases hzero

end Migration

end LineMigration
