import LineMigration.Stream.Reader
import LineMigration.Proofs.Text.Utf8

/-!
# Lines of text and lines of octets

`Text.lines` cuts a text after each line feed, as `splitLines` cuts octets after each 0x0A. As no
other character has an octet 0x0A in it, cutting and encoding commute, and a reader of valid UTF-8
gives the lines of the text (`Reader.lines_of_utf8`). Conversely a reader without an unreadable
line has valid UTF-8 to read (`Reader.exists_text_of_lines`).
-/

namespace LineMigration

/-- The lines of a text, each with its line feed; the last one may lack it. -/
def Text.lines : Text → List Text
  | [] => []
  | c :: rest =>
    if c = '\n' then [c] :: lines rest
    else
      match lines rest with
      | [] => [[c]]
      | line :: others => (c :: line) :: others

/-! ## Texts -/

/-- A line ends at the first line feed. -/
theorem Text.lines_append_lineFeed {before : Text} (h : '\n' ∉ before) (rest : Text) :
    Text.lines (before ++ '\n' :: rest) = (before ++ ['\n']) :: Text.lines rest := by
  induction before with
  | nil => simp [Text.lines]
  | cons c before ih =>
    simp only [List.mem_cons, not_or] at h
    simp [Text.lines, Ne.symm h.1, ih h.2]

/-- A text without a line feed is a line of its own. -/
theorem Text.lines_of_not_mem {text : Text} (h : '\n' ∉ text) (hne : text ≠ []) :
    Text.lines text = [text] := by
  induction text with
  | nil => exact absurd rfl hne
  | cons c rest ih =>
    simp only [List.mem_cons, not_or] at h
    cases rest with
    | nil => simp [Text.lines, Ne.symm h.1]
    | cons next rest =>
      rw [Text.lines, if_neg (Ne.symm h.1), ih h.2 (List.cons_ne_nil _ _)]

/-- What holds of texts without a line feed, and of a line before a text of which it holds, holds
of every text. -/
theorem Text.line_induction {motive : Text → Prop}
    (last : ∀ text, '\n' ∉ text → motive text)
    (line : ∀ before rest, '\n' ∉ before → motive rest → motive (before ++ '\n' :: rest))
    (text : Text) : motive text := by
  by_cases h : '\n' ∈ text
  · obtain ⟨before, rest, htext, hbefore⟩ := List.eq_append_cons_of_mem h
    have hlt : rest.length < text.length := by
      rw [htext]
      simp
      omega
    rw [htext]
    exact line before rest hbefore (line_induction last line rest)
  · exact last text h
termination_by text.length

/-- The lines of a text, put together, are the text. -/
@[simp] theorem Text.flatten_lines (text : Text) : (Text.lines text).flatten = text := by
  induction text using Text.line_induction with
  | last text h =>
    by_cases hne : text = []
    · rw [hne]
      rfl
    · simp [Text.lines_of_not_mem h hne]
  | line before rest h ih => simp [Text.lines_append_lineFeed h, ih]

/-! ## Octets -/

/-- The octets of texts one after another are those of one text. -/
theorem Text.utf8_flatten (texts : List Text) :
    Text.utf8 texts.flatten = (texts.map Text.utf8).flatten := by
  induction texts with
  | nil => rfl
  | cons text texts ih => simp [ih]

/-- The octet of a line feed is found in the octets of no other character. -/
theorem eq_lineFeed_of_mem_encoded {c : Char} (h : lineFeed ∈ String.utf8EncodeChar c) :
    c = '\n' := by
  have hoctet : ∀ n, n < 0x100 → lineFeed = UInt8.ofNat n → n = 0x0A := by
    intro n hn heq
    rw [← Utf8.toNat_octet hn, ← heq]
    rfl
  have hlarge : ∀ n, n < 0x80 → lineFeed ≠ UInt8.ofNat (n + 0x80) := by
    intro n hn heq
    have := hoctet _ (by omega) heq
    omega
  have hval : c.val.toNat = c.toNat := rfl
  simp only [String.utf8EncodeChar, hval] at h
  split at h
  · have hcode : c.toNat = '\n'.toNat := hoctet _ (by omega) (List.mem_singleton.1 h)
    rw [← Char.ofNat_toNat c, hcode]
    rfl
  · -- All octets of a longer form are 0x80 at least.
    refine absurd h ?_
    repeat' split
    all_goals
      simp only [List.mem_cons, List.not_mem_nil, or_false, not_or]
      repeat' apply And.intro
      all_goals
        exact hlarge _ (by omega)

/-- A text without a line feed has no octet 0x0A. -/
theorem lineFeed_not_mem_utf8 {text : Text} (h : '\n' ∉ text) : lineFeed ∉ Text.utf8 text := by
  intro hmem
  obtain ⟨c, hc, hoctet⟩ := List.mem_flatMap.1 hmem
  exact h (eq_lineFeed_of_mem_encoded hoctet ▸ hc)

/-- Octets without a line feed are unfinished. -/
theorem splitLines_of_not_mem {octets : Bytes} (h : lineFeed ∉ octets) :
    splitLines octets = ([], octets) := by
  induction octets with
  | nil => rfl
  | cons octet rest ih =>
    simp only [List.mem_cons, not_or] at h
    simp [splitLines, Ne.symm h.1, ih h.2]

/-- The first line feed ends the first line. -/
theorem splitLines_append_lineFeed {before : Bytes} (h : lineFeed ∉ before) (rest : Bytes) :
    splitLines (before ++ lineFeed :: rest) =
      ((before ++ [lineFeed]) :: (splitLines rest).1, (splitLines rest).2) := by
  induction before with
  | nil => simp [splitLines]
  | cons octet before ih =>
    simp only [List.mem_cons, not_or] at h
    simp [splitLines, Ne.symm h.1, ih h.2]

/-- All lines of octets in one list: those that end, and the last one if it holds anything. -/
def octetLines (octets : Bytes) : List Bytes :=
  (splitLines octets).1 ++ if (splitLines octets).2 = [] then [] else [(splitLines octets).2]

/-- The lines of octets, put together, are the octets. -/
theorem flatten_octetLines (octets : Bytes) : (octetLines octets).flatten = octets := by
  conv => rhs; rw [← flatten_splitLines octets]
  unfold octetLines
  split
  · next h => simp [h]
  · simp

/-- Encoding keeps a line feed where it is. -/
theorem Text.utf8_append_lineFeed (before rest : Text) :
    Text.utf8 (before ++ '\n' :: rest) = Text.utf8 before ++ lineFeed :: Text.utf8 rest := by
  rw [Text.utf8_append]
  rfl

/-- The first line feed ends the first of the lines. -/
theorem octetLines_append_lineFeed {before : Bytes} (h : lineFeed ∉ before) (rest : Bytes) :
    octetLines (before ++ lineFeed :: rest) = (before ++ [lineFeed]) :: octetLines rest := by
  simp only [octetLines, splitLines_append_lineFeed h, List.cons_append]

/-- Cutting and encoding commute. -/
theorem octetLines_utf8 (text : Text) :
    octetLines (Text.utf8 text) = (Text.lines text).map Text.utf8 := by
  induction text using Text.line_induction with
  | last text h =>
    simp only [octetLines, splitLines_of_not_mem (lineFeed_not_mem_utf8 h)]
    by_cases hne : text = []
    · simp [hne, Text.lines]
    · have hoctets : Text.utf8 text ≠ [] := fun heq ↦ hne (Text.utf8_injective heq)
      simp [hoctets, Text.lines_of_not_mem h hne]
  | line before rest h ih =>
    rw [Text.lines_append_lineFeed h, List.map_cons, ← ih, Text.utf8_append_lineFeed,
      Text.utf8_append_lineFeed, octetLines_append_lineFeed (lineFeed_not_mem_utf8 h)]
    rfl

namespace Reader

variable {reader : Reader} {text : Text} {texts : List Text}

/-- A reader that does not fail gives all its lines. -/
theorem lines_of_failure_eq_none (hend : reader.failure = none) :
    reader.lines = (octetLines reader.blocks.flatten).map decodeLine := by
  simp only [lines, gather_eq_splitLines, ending, hend, octetLines, List.map_append,
    List.isEmpty_iff]
  split <;> rfl

@[simp] theorem decodeLine_utf8 (text : Text) : decodeLine (Text.utf8 text) = .ok text := by
  simp [decodeLine]

/-- A line is readable exactly if it is the octets of its text. -/
theorem decodeLine_eq_ok_iff {line : Bytes} :
    decodeLine line = .ok text ↔ line = Text.utf8 text := by
  rw [← Utf8.decode_eq_some_iff, decodeLine]
  split <;> simp_all

/-- A reader of valid UTF-8 gives the lines of the text, however its blocks are cut. -/
theorem lines_of_utf8 (hbytes : reader.blocks.flatten = Text.utf8 text)
    (hend : reader.failure = none) : reader.lines = (Text.lines text).map .ok := by
  rw [lines_of_failure_eq_none hend, hbytes, octetLines_utf8, List.map_map]
  exact List.map_congr_left fun line _ ↦ decodeLine_utf8 line

/-- Readable lines are the octets of their texts. -/
theorem eq_map_utf8_of_map_decodeLine {lines : List Bytes}
    (h : lines.map decodeLine = texts.map .ok) : lines = texts.map Text.utf8 := by
  induction lines generalizing texts with
  | nil =>
    rw [List.map_nil, eq_comm, List.map_eq_nil_iff] at h
    rw [h, List.map_nil]
  | cons line lines ih =>
    cases texts with
    | nil => cases h
    | cons text texts =>
      simp only [List.map_cons, List.cons.injEq] at h
      rw [List.map_cons, decodeLine_eq_ok_iff.1 h.1, ih h.2]

/-- A reader whose lines can all be read does not fail. -/
theorem failure_eq_none_of_lines (hlines : reader.lines = texts.map .ok) :
    reader.failure = none := by
  cases hfailure : reader.failure with
  | none => rfl
  | some cause =>
    have hmem : .error cause ∈ reader.lines := by simp [lines, ending, hfailure]
    rw [hlines] at hmem
    simp at hmem

/-- Without an unreadable line, what was read is valid UTF-8. -/
theorem exists_text_of_lines (hend : reader.failure = none)
    (hlines : reader.lines = texts.map .ok) :
    ∃ text, reader.blocks.flatten = Text.utf8 text ∧ texts = Text.lines text := by
  have hoctets : octetLines reader.blocks.flatten = texts.map Text.utf8 := by
    rw [lines_of_failure_eq_none hend] at hlines
    exact eq_map_utf8_of_map_decodeLine hlines
  have hbytes : reader.blocks.flatten = Text.utf8 texts.flatten := by
    rw [← flatten_octetLines reader.blocks.flatten, hoctets, Text.utf8_flatten]
  refine ⟨texts.flatten, hbytes, ?_⟩
  have hmap : (Text.lines texts.flatten).map Except.ok = texts.map (Except.ok (ε := Cause)) :=
    (lines_of_utf8 hbytes hend).symm.trans hlines
  exact ((List.map_inj_right fun _ _ heq ↦ Except.ok.inj heq).1 hmap).symm

end Reader

end LineMigration
