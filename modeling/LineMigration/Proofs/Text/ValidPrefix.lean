import Mathlib.Data.Nat.Find
import LineMigration.Proofs.Text.Line

/-!
# How far octets are UTF-8

`Utf8.validPrefix` is the longest beginning of octets that is UTF-8. Whole characters in front of
octets do not change how far the rest is (`validPrefix_utf8_append`), and no line that is not UTF-8
lies within it with its line feed (`lineFeed_not_mem_validPrefix`). So the number of line feeds in
it is the number of the first line that is not UTF-8 (`count_lineFeed_validPrefix`).
-/

namespace LineMigration

namespace Utf8

/-- The octets are those of a text. -/
def IsValid (octets : Bytes) : Prop := ∃ text, octets = Text.utf8 text

theorem isValid_iff_decode {octets : Bytes} : IsValid octets ↔ (decode octets).isSome = true := by
  simp only [IsValid, ← decode_eq_some_iff, Option.isSome_iff_exists]

instance (octets : Bytes) : Decidable (IsValid octets) :=
  decidable_of_iff _ isValid_iff_decode.symm

/-- The longest beginning of octets that is UTF-8. -/
def validPrefix (octets : Bytes) : Bytes :=
  octets.take (Nat.findGreatest (fun size ↦ IsValid (octets.take size)) octets.length)

variable {octets : Bytes}

theorem isValid_utf8 (text : Text) : IsValid (Text.utf8 text) := ⟨text, rfl⟩

/-! ## The longest valid beginning -/

theorem validPrefix_isPrefix (octets : Bytes) : validPrefix octets <+: octets :=
  List.take_prefix _ _

theorem isValid_validPrefix (octets : Bytes) : IsValid (validPrefix octets) := by
  have hnothing : IsValid (octets.take 0) := ⟨[], rfl⟩
  exact Nat.findGreatest_spec (P := fun size ↦ IsValid (octets.take size)) (Nat.zero_le _) hnothing

/-- Every valid beginning is within the longest one. -/
theorem isPrefix_validPrefix {part : Bytes} (hpart : part <+: octets) (hvalid : IsValid part) :
    part <+: validPrefix octets := by
  rw [List.prefix_iff_eq_take.1 hpart] at hvalid
  have hle :=
    Nat.le_findGreatest (P := fun size ↦ IsValid (octets.take size)) hpart.length_le hvalid
  refine List.prefix_of_prefix_length_le hpart (validPrefix_isPrefix octets) ?_
  rw [validPrefix, List.length_take]
  exact Nat.le_min.2 ⟨hle, hpart.length_le⟩

/-- A text in front of octets leaves open whether they are valid. -/
theorem isValid_utf8_append_iff (text : Text) (rest : Bytes) :
    IsValid (Text.utf8 text ++ rest) ↔ IsValid rest := by
  constructor
  · rintro ⟨whole, hwhole⟩
    -- Behind the text the machine is at its start, and it goes on as for the rest alone.
    have hrun := run_utf8 whole
    rw [← hwhole, run_append, run_utf8, Option.bind_some, Option.map_eq_some_iff] at hrun
    obtain ⟨⟨final, more⟩, hrest, heq⟩ := hrun
    cases heq
    exact ⟨more, eq_utf8_of_run hrest⟩
  · rintro ⟨more, rfl⟩
    exact ⟨text ++ more, (Text.utf8_append text more).symm⟩

/-- Whole characters in front do not change how far the rest is valid. -/
theorem validPrefix_utf8_append (text : Text) (rest : Bytes) :
    validPrefix (Text.utf8 text ++ rest) = Text.utf8 text ++ validPrefix rest := by
  have hfront : Text.utf8 text <+: validPrefix (Text.utf8 text ++ rest) :=
    isPrefix_validPrefix (List.prefix_append _ _) (isValid_utf8 text)
  obtain ⟨part, hpart⟩ := hfront
  have hwithin : part <+: validPrefix rest := by
    refine isPrefix_validPrefix ?_ ((isValid_utf8_append_iff text part).1 ?_)
    · rw [← List.prefix_append_right_inj (Text.utf8 text), hpart]
      exact validPrefix_isPrefix _
    · rw [hpart]
      exact isValid_validPrefix _
  have hall : Text.utf8 text ++ validPrefix rest <+: validPrefix (Text.utf8 text ++ rest) :=
    isPrefix_validPrefix ((List.prefix_append_right_inj _).2 (validPrefix_isPrefix rest))
      ((isValid_utf8_append_iff text _).2 (isValid_validPrefix rest))
  rw [← hpart, List.prefix_append_right_inj] at hall
  rw [← hpart, hwithin.eq_of_length_le hall.length_le]

/-! ## Lines that are not valid -/

/-- Where the first line is not valid, the longest valid beginning ends before its line feed. -/
theorem lineFeed_not_mem_validPrefix {line : Bytes} {more : List Bytes}
    (hlines : octetLines octets = line :: more) (hinvalid : ¬ IsValid line) :
    lineFeed ∉ validPrefix octets := by
  intro hmem
  obtain ⟨text, htext⟩ := isValid_validPrefix octets
  obtain ⟨rest, hrest⟩ := validPrefix_isPrefix octets
  have hfeed : '\n' ∈ text := by
    by_contra hnot
    exact lineFeed_not_mem_utf8 hnot (htext ▸ hmem)
  obtain ⟨before, after, rfl, hbefore⟩ := List.eq_append_cons_of_mem hfeed
  have hsplit : octets = Text.utf8 before ++ lineFeed :: (Text.utf8 after ++ rest) := by
    rw [← hrest, htext, Text.utf8_append_lineFeed, List.append_assoc, List.cons_append]
  rw [hsplit, octetLines_append_lineFeed (lineFeed_not_mem_utf8 hbefore)] at hlines
  refine hinvalid ⟨before ++ ['\n'], ?_⟩
  rw [← (List.cons.inj hlines).1, Text.utf8_append_lineFeed]
  rfl

/-- The longest valid beginning has as many line feeds as lines come before the first that is not
valid. -/
theorem count_lineFeed_validPrefix {before : List Text} {line : Bytes} {more : List Bytes}
    (hlines : octetLines octets = before.map Text.utf8 ++ line :: more)
    (hinvalid : ¬ IsValid line) : (validPrefix octets).count lineFeed = before.length := by
  induction before generalizing octets with
  | nil => exact List.count_eq_zero.2 (lineFeed_not_mem_validPrefix hlines hinvalid)
  | cons text before ih =>
    -- More than one line is left, so the first one ends with a line feed.
    have hfeed : lineFeed ∈ octets := by
      by_contra hnot
      rw [octetLines, splitLines_of_not_mem hnot] at hlines
      have hlength := congrArg List.length hlines
      simp only [List.nil_append, List.map_cons, List.cons_append, List.length_cons,
        List.length_append] at hlength
      split at hlength <;> simp at hlength
    obtain ⟨first, rest, rfl, hfirst⟩ := List.eq_append_cons_of_mem hfeed
    rw [octetLines_append_lineFeed hfirst, List.map_cons, List.cons_append, List.cons.injEq]
      at hlines
    obtain ⟨htext, hrest⟩ := hlines
    have hcount : (Text.utf8 text).count lineFeed = 1 := by
      rw [← htext, List.count_append, List.count_eq_zero.2 hfirst]
      rfl
    rw [← List.singleton_append, ← List.append_assoc, htext, validPrefix_utf8_append,
      List.count_append, hcount, ih hrest, List.length_cons, Nat.add_comm]

end Utf8

end LineMigration
