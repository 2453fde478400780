import LineMigration.Proofs.Text.Line

/-!
# Reading up to a limit

A reader that delivers the first bytes of an input and then fails loses the line that it is in.
`readingAt` says this of a single line of the input: whether it is there, whole by then, and
UTF-8. `Reader.Delivers` ties a reader to an input and a limit, and `Delivers.readingAt` and
`Delivers.readingAt_length` say that the lines of such a reader are those of the input, in their
order, up to the first that cannot be read.
-/

namespace LineMigration

/-! ## Cutting -/

/-- Every line that was cut off ends with its line feed. -/
theorem getLast?_of_mem_splitLines {octets line : Bytes} (h : line ∈ (splitLines octets).1) :
    line.getLast? = some lineFeed := by
  induction octets generalizing line with
  | nil => cases h
  | cons octet rest ih =>
    simp only [splitLines] at h
    split at h
    · next hfeed =>
      rcases List.mem_cons.1 h with rfl | hrest
      · rw [hfeed]
        rfl
      · exact ih hrest
    · split at h
      · cases h
      · next first others hlines =>
        rw [hlines] at ih
        rcases List.mem_cons.1 h with rfl | hothers
        · have hfirst := ih List.mem_cons_self
          rw [List.getLast?_cons, hfirst]
          rfl
        · exact ih (List.mem_cons_of_mem _ hothers)

/-- It has no other line feed. -/
theorem lineFeed_not_mem_dropLast {octets line : Bytes} (h : line ∈ (splitLines octets).1) :
    lineFeed ∉ line.dropLast := by
  induction octets generalizing line with
  | nil => cases h
  | cons octet rest ih =>
    simp only [splitLines] at h
    split at h
    · rcases List.mem_cons.1 h with rfl | hrest
      · exact List.not_mem_nil
      · exact ih hrest
    · next hother =>
      split at h
      · cases h
      · next first others hlines =>
        rw [hlines] at ih
        rcases List.mem_cons.1 h with rfl | hothers
        · have hfirst := ih List.mem_cons_self
          cases first with
          | nil => exact List.not_mem_nil
          | cons next first =>
            rw [List.dropLast_cons_of_ne_nil (List.cons_ne_nil _ _), List.mem_cons, not_or]
            exact ⟨fun heq ↦ hother heq.symm, hfirst⟩
        · exact ih (List.mem_cons_of_mem _ hothers)

/-- What follows the last line feed has none. -/
theorem lineFeed_not_mem_unfinished (octets : Bytes) : lineFeed ∉ (splitLines octets).2 := by
  induction octets with
  | nil => exact List.not_mem_nil
  | cons octet rest ih =>
    simp only [splitLines]
    split
    · exact ih
    · next hother =>
      split
      · next hlines =>
        rw [List.mem_cons, not_or]
        exact ⟨fun heq ↦ hother heq.symm, ih⟩
      · exact ih

/-- A line that a reader gives has a line feed at its end only. -/
theorem Reader.lineFeed_not_mem_dropLast_of_mem_lines {reader : Reader} {line : Text}
    (h : .ok line ∈ reader.lines) : '\n' ∉ line.dropLast := by
  have hoctets : lineFeed ∉ (Text.utf8 line).dropLast := by
    simp only [lines, gather_eq_splitLines, List.mem_append, List.mem_map] at h
    rcases h with ⟨octets, hmem, hline⟩ | hlast
    · rw [← decodeLine_eq_ok_iff.1 hline]
      exact lineFeed_not_mem_dropLast hmem
    · simp only [ending] at hlast
      split at hlast
      · simp at hlast
      · split at hlast
        · cases hlast
        · rw [← decodeLine_eq_ok_iff.1 (List.mem_singleton.1 hlast).symm]
          exact fun hmem ↦ lineFeed_not_mem_unfinished _ (List.dropLast_subset _ hmem)
  rcases List.eq_nil_or_concat line with rfl | ⟨before, last, rfl⟩
  · exact List.not_mem_nil
  rw [List.concat_eq_append] at hoctets ⊢
  rw [List.dropLast_concat]
  intro hmem
  -- Leaving out the last character leaves out its octets, and at the least the last of them.
  have hlast : Text.utf8 [last] ≠ [] := fun heq ↦ List.cons_ne_nil _ _ (Text.utf8_injective heq)
  rw [Text.utf8_append, List.dropLast_append_of_ne_nil hlast] at hoctets
  exact hoctets (List.mem_append_left _ (List.mem_flatMap.2 ⟨'\n', hmem, by decide⟩))

/-! ## Lines within a limit -/

/-- Whether line `number` of the input ends with its line feed within the first `most` bytes. -/
def endsWithin (input : Bytes) (most number : Nat) : Bool :=
  (octetLines input)[number]?.bind List.getLast? = some lineFeed &&
    ((octetLines input).take (number + 1)).flatten.length ≤ most

/-- What reading line `number` of the input gives: nothing behind the last line, else its text or
a cause. With a limit the reader fails at every line that has not ended within it. -/
def readingAt (input : Bytes) (limit : Option (Nat × Cause)) (number : Nat) :
    Option (Except Cause Text) :=
  match limit with
  | none => (octetLines input)[number]?.map Reader.decodeLine
  | some (most, cause) =>
    if endsWithin input most number then (octetLines input)[number]?.map Reader.decodeLine
    else some (.error cause)

/-- The lines that end within the first bytes are the first lines of the input. -/
theorem octetLines_eq_append (input : Bytes) (most : Nat) :
    ∃ rest, octetLines input = (splitLines (input.take most)).1 ++ rest := by
  have hsplit := Reader.splitLines_append (input.take most) (input.drop most)
  rw [List.take_append_drop] at hsplit
  unfold octetLines
  rw [hsplit]
  cases splitLines (input.drop most) with
  | mk others last =>
    cases others with
    | nil => exact ⟨_, rfl⟩
    | cons line others => exact ⟨_, List.append_assoc ..⟩

/-- A line that is cut off from the first bytes ends within them. -/
theorem endsWithin_of_lt {input : Bytes} {most number : Nat}
    (h : number < (splitLines (input.take most)).1.length) :
    endsWithin input most number = true := by
  obtain ⟨rest, hlines⟩ := octetLines_eq_append input most
  have hflat := flatten_splitLines (input.take most)
  have hlast : (octetLines input)[number]?.bind List.getLast? = some lineFeed := by
    rw [hlines, List.getElem?_append_left h, List.getElem?_eq_getElem h]
    exact getLast?_of_mem_splitLines (List.getElem_mem h)
  have htake : (octetLines input).take (number + 1) =
      (splitLines (input.take most)).1.take (number + 1) := by
    rw [hlines, List.take_append_of_le_length h]
  have hlength : ((splitLines (input.take most)).1.take (number + 1)).flatten.length ≤
      (input.take most).length := by
    generalize (splitLines (input.take most)).1 = lines at hflat
    have hparts := congrArg List.flatten (List.take_append_drop (number + 1) lines)
    rw [List.flatten_append] at hparts
    rw [← hflat, ← hparts, List.append_assoc, List.length_append]
    exact Nat.le_add_right _ _
  rw [endsWithin, hlast, htake]
  simp only [decide_true, Bool.true_and, decide_eq_true_eq]
  exact Nat.le_trans hlength (List.length_take_le _ _)

/-- The line after those does not end within the first bytes. -/
theorem endsWithin_length (input : Bytes) (most : Nat) :
    endsWithin input most (splitLines (input.take most)).1.length = false := by
  obtain ⟨rest, hlines⟩ := octetLines_eq_append input most
  have hflat := flatten_splitLines (input.take most)
  have hpiece := lineFeed_not_mem_unfinished (input.take most)
  have hinput := flatten_octetLines input
  generalize (splitLines (input.take most)).1 = lines at hlines hflat ⊢
  generalize (splitLines (input.take most)).2 = piece at hflat hpiece
  rw [← Bool.not_eq_true]
  intro hends
  simp only [endsWithin, hlines, Bool.and_eq_true, decide_eq_true_eq] at hends
  obtain ⟨hlast, hlength⟩ := hends
  cases rest with
  | nil => simp at hlast
  | cons line others =>
    -- If the line ended within the first bytes, its line feed would be in what is left of them.
    have hmem : lineFeed ∈ line := List.mem_of_getLast? (by simpa using hlast)
    have htake : (lines ++ line :: others).take (lines.length + 1) = lines ++ [line] := by
      rw [List.take_length_add_append, List.take_succ_cons, List.take_zero]
    have hshort : lines.flatten.length + line.length ≤ most := by
      simpa [htake] using hlength
    rw [← hinput, hlines, List.flatten_append, List.flatten_cons, List.take_append,
      List.take_of_length_le (by omega), List.take_append, List.take_of_length_le (by omega),
      List.append_cancel_left_eq] at hflat
    exact hpiece (hflat ▸ List.mem_append_left _ hmem)

/-! ## Readers with a limit -/

namespace Reader

/-- The reader delivers the input and ends; or, with a limit, it delivers so many bytes of it at
most and then fails. How they are cut into blocks is left open. -/
def Delivers (reader : Reader) (input : Bytes) : Option (Nat × Cause) → Prop
  | none => reader.blocks.flatten = input ∧ reader.failure = none
  | some (most, cause) => reader.blocks.flatten = input.take most ∧ reader.failure = some cause

/-- Blocks of one size deliver the input. -/
theorem delivers_inBlocks (size : Nat) (input : Bytes) (limit : Option (Nat × Cause)) :
    (inBlocks size input limit).Delivers input limit := by
  cases limit with
  | none => exact ⟨flatten_cut _ _ _, rfl⟩
  | some limit => exact ⟨flatten_cut _ _ _, rfl⟩

namespace Delivers

variable {reader : Reader} {input : Bytes} {limit : Option (Nat × Cause)} {number : Nat}
  {most : Nat} {cause : Cause}

/-- With a limit, the lines that end within it are read, and then reading fails. -/
theorem lines_eq (h : reader.Delivers input (some (most, cause))) :
    reader.lines = (splitLines (input.take most)).1.map decodeLine ++ [.error cause] := by
  simp only [lines, ending, gather_eq_splitLines, h.1, h.2]

/-- What a reader gives as a line is the reading of that line of the input. -/
theorem readingAt {line : Except Cause Text} (h : reader.Delivers input limit)
    (hline : reader.lines[number]? = some line) :
    LineMigration.readingAt input limit number = some line := by
  cases limit with
  | none =>
    rw [lines_of_failure_eq_none h.2, h.1, List.getElem?_map] at hline
    exact hline
  | some limit =>
    obtain ⟨most, cause⟩ := limit
    rw [h.lines_eq] at hline
    obtain ⟨rest, hoctets⟩ := octetLines_eq_append input most
    by_cases hlt : number < (splitLines (input.take most)).1.length
    · rw [List.getElem?_append_left (by simpa using hlt), List.getElem?_map] at hline
      simp only [LineMigration.readingAt, endsWithin_of_lt hlt, if_true]
      rw [hoctets, List.getElem?_append_left hlt]
      exact hline
    · -- The only line that is left is the one at which the reader fails.
      have hnumber : number = (splitLines (input.take most)).1.length := by
        have hbound := (List.getElem?_eq_some_iff.1 hline).1
        simp only [List.length_append, List.length_map, List.length_singleton] at hbound
        omega
      rw [hnumber, List.getElem?_append_right (by simp)] at hline
      rw [hnumber]
      simpa [LineMigration.readingAt, endsWithin_length] using hline

/-- Where all lines of a reader are texts, nothing is behind them. -/
theorem readingAt_length {texts : List Text} (h : reader.Delivers input limit)
    (hlines : reader.lines = texts.map .ok) :
    LineMigration.readingAt input limit texts.length = none := by
  cases limit with
  | none =>
    rw [lines_of_failure_eq_none h.2, h.1] at hlines
    have hlength := congrArg List.length hlines
    simp only [List.length_map] at hlength
    simp [LineMigration.readingAt, ← hlength]
  | some limit =>
    obtain ⟨most, cause⟩ := limit
    rw [h.lines_eq] at hlines
    have hmem : (Except.error cause : Except Cause Text) ∈ texts.map .ok := by
      rw [← hlines]
      simp
    obtain ⟨text, -, htext⟩ := List.mem_map.1 hmem
    cases htext

end Delivers

end Reader

end LineMigration
