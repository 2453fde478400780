import LineMigration.Proofs.Stream.Course
import LineMigration.Proofs.Text.ValidPrefix

/-!
# Streams that are not UTF-8

Lines are read one by one, and each is checked when it is read. Together these checks refuse
exactly the streams that are not UTF-8 as a whole, and the line at which a run stops is known from
the octets alone: as many line feeds come before it as there are in the longest beginning that is
UTF-8 (`editAll_rejects_invalid`). What was told and written by then is what the lines before it
give, all of which are complete.
-/

namespace LineMigration

open Utf8 (IsValid validPrefix)

namespace Reader

variable {reader : Reader}

/-- A line that cannot be decoded is not valid, and that is the cause. -/
theorem decodeLine_eq_error_iff {line : Bytes} {cause : Cause} :
    decodeLine line = .error cause ↔ ¬ IsValid line ∧ cause = .invalidUtf8 := by
  rw [Utf8.isValid_iff_decode, decodeLine]
  cases Utf8.decode line with
  | none => simp [eq_comm]
  | some text => simp

/-- Lines that were read before one that could not be read are the first lines of the octets, and
the next one is not valid. -/
theorem exists_invalid_of_lines (hend : reader.failure = none) {before : List Text} {cause : Cause}
    {rest : List (Except Cause Text)}
    (hlines : reader.lines = before.map .ok ++ .error cause :: rest) :
    cause = .invalidUtf8 ∧ ∃ line more, ¬ IsValid line ∧
      octetLines reader.blocks.flatten = before.map Text.utf8 ++ line :: more := by
  rw [lines_of_failure_eq_none hend, List.map_eq_append_iff] at hlines
  obtain ⟨first, others, hoctets, hfirst, hothers⟩ := hlines
  obtain ⟨line, more, rfl, hline, -⟩ := List.map_eq_cons_iff.1 hothers
  obtain ⟨hinvalid, hcause⟩ := decodeLine_eq_error_iff.1 hline
  exact ⟨hcause, line, more, hinvalid, by rw [hoctets, eq_map_utf8_of_map_decodeLine hfirst]⟩

end Reader

/-- All lines before some line of octets are complete. -/
theorem isPrefix_splitLines_of_octetLines {octets line : Bytes} {before more : List Bytes}
    (h : octetLines octets = before ++ line :: more) : before <+: (splitLines octets).1 := by
  have hshort : (octetLines octets).length ≤ (splitLines octets).1.length + 1 := by
    rw [octetLines, List.length_append]
    split <;> simp
  have hbefore : before <+: octetLines octets := h ▸ List.prefix_append _ _
  refine List.prefix_of_prefix_length_le hbefore (List.prefix_append _ _) ?_
  rw [h, List.length_append, List.length_cons] at hshort
  omega

namespace Stream

variable {table : Table} {σ : Type} [Writer σ] {observer : Observer} {start : σ}

/-- Where only invalid UTF-8 can stop a run, it fails exactly if the octets as a whole are not
UTF-8. It then names the line whose number is that of the line feeds in the longest valid beginning,
and it has told and written what the lines before give, which are the first complete ones. -/
theorem editAll_rejects_invalid (hobserver : ∀ told change, observer told change = none)
    {received : σ → Bytes} {usable : σ → Prop} (haccounts : Writer.Accounts received)
    (hnever : Writer.NeverFails usable) (hstart : usable start) {reader : Reader}
    (hend : reader.failure = none) :
    let input := reader.blocks.flatten
    let number := (validPrefix input).count lineFeed
    let run := editAll table observer reader start
    ((∃ failure, run.outcome = .error failure) ↔ ¬ ∃ text, input = Text.utf8 text) ∧
    ∀ failure, run.outcome = .error failure →
      (∀ source, failure.fault source = .io "stream did not contain valid UTF-8".toList
        (some ("read ".toList ++ source ++ " line ".toList ++ Text.decimal number))) ∧
      ∃ lines : List Text, lines.length = number ∧
        lines.map Text.utf8 <+: (splitLines input).1 ∧
        run.changes = changesFrom table 0 lines ∧
        received run.writer = received start ++ Text.utf8 (editedLines table lines) := by
  intro input number run
  have hstopped : Stopped table observer start reader.lines run := editAll_stopped reader
  rcases hstopped.finished_or_unreadable hobserver hnever hstart with
    ⟨before, hreached, hlines, hfailure⟩ | ⟨before, cause, rest, hreached, hlines, hfailure⟩
  · obtain ⟨text, htext, -⟩ := Reader.exists_text_of_lines hend hlines
    have hok : run.outcome = .ok run.changes := hstopped.outcome_eq_ok hfailure
    simp only [hok, reduceCtorEq, exists_false, false_iff, not_not, IsEmpty.forall_iff,
      implies_true, and_true]
    exact ⟨text, htext⟩
  · obtain ⟨rfl, line, more, hinvalid, hoctets⟩ := Reader.exists_invalid_of_lines hend hlines
    have hnumber : number = before.length := Utf8.count_lineFeed_validPrefix hoctets hinvalid
    have herror : run.outcome = .error (.read number .invalidUtf8) := by
      rw [hnumber]
      exact Run.failure_eq_some_iff.1 hfailure
    have hwhole : ¬ ∃ text, input = Text.utf8 text := by
      rintro ⟨text, htext⟩
      -- The lines of valid octets are valid, but this one is not.
      have hmem : line ∈ octetLines input := by simp [input, hoctets]
      rw [htext, octetLines_utf8] at hmem
      obtain ⟨valid, -, rfl⟩ := List.mem_map.1 hmem
      exact hinvalid (Utf8.isValid_utf8 valid)
    refine ⟨⟨fun _ ↦ hwhole, fun _ ↦ ⟨_, herror⟩⟩, ?_⟩
    intro failure hfailed
    cases herror.symm.trans hfailed
    exact ⟨fun source ↦ rfl, before, hnumber.symm, isPrefix_splitLines_of_octetLines hoctets,
      hreached.changes, hreached.received haccounts⟩

/-- A character that is cut off by the second line feed: the first line is told and written, the
second is named, and the third, which is valid, is not read. -/
theorem editAll_rejects_invalid_cut_character :
    let table : Table := [⟨['a'], ['x', 'y']⟩]
    let reader : Reader := .ofBytes [97, 10, 0xE2, 0x82, 10, 97, 10]
    let run := editAll table .silent reader (Limited.fresh none (.system .noSpace))
    (∃ failure, run.outcome = .error failure) ∧
    ∀ failure, run.outcome = .error failure →
      (∀ source, failure.fault source = .io "stream did not contain valid UTF-8".toList
        (some ("read ".toList ++ source ++ " line ".toList ++ Text.decimal 1))) ∧
      ∃ lines : List Text, lines.length = 1 ∧ run.changes = changesFrom table 0 lines ∧
        run.writer.taken = [] ++ Text.utf8 (editedLines table lines) := by
  intro table reader run
  have hnumber : (validPrefix reader.blocks.flatten).count lineFeed = 1 := by decide +kernel
  have hinvalid : ¬ ∃ text, reader.blocks.flatten = Text.utf8 text := by
    show ¬ IsValid reader.blocks.flatten
    decide +kernel
  obtain ⟨hiff, hall⟩ :=
    @editAll_rejects_invalid table _ _ .silent _ (fun _ _ ↦ rfl) _ _ Limited.accounts
      Limited.neverFails (show (Limited.fresh none (.system .noSpace)).room = none from rfl)
      reader rfl
  refine ⟨hiff.2 hinvalid, fun failure hfailure ↦ ?_⟩
  obtain ⟨hfault, lines, hlength, -, hchanges, htaken⟩ := hall failure hfailure
  rw [hnumber] at hfault hlength
  exact ⟨hfault, lines, hlength, hchanges, htaken⟩

end Stream

end LineMigration
