import LineMigration.Text.Line
import LineMigration.Proofs.Text.Trimming
import LineMigration.Proofs.Table.Apply

/-!
# Tables and the ending of a line

A line is its body and its ending, the trailing run of line feeds and carriage returns. Keys
without a line break do not reach into the ending, and replacement cannot lengthen it as long as
no new text is empty or ends with a line break. Such a table edits the body and leaves the ending
as it was (`edited_append`); what it makes of the body is a body again (`apply_body`).
-/

namespace LineMigration

/-! ## Bodies and endings -/

/-- Whether a text does not end with a line feed or carriage return. -/
def Text.EndsPlain (text : Text) : Prop := ∀ c ∈ text.getLast?, isLineBreak c = false

instance (text : Text) : Decidable text.EndsPlain :=
  decidable_of_iff (text.getLast?.all (!isLineBreak ·) = true)
    (by simp [Text.EndsPlain, Option.all_eq_true])

namespace Text

variable {text run line : Text}

/-- The text before a run of line breaks is the body, if it does not end with one itself. -/
theorem body_append (htext : text.EndsPlain) (hrun : ∀ c ∈ run, isLineBreak c = true) :
    body (text ++ run) = text :=
  (trimEnd_append_of_forall hrun text).trans (trimEnd_eq_self htext)

/-- A body does not end with a line break. -/
theorem endsPlain_body (line : Text) : (body line).EndsPlain := getLast?_trimEnd line

/-- An ending is made of line breaks. -/
theorem isLineBreak_of_mem_ending (line : Text) : ∀ c ∈ ending line, isLineBreak c = true :=
  forall_mem_trailing line

/-- The body of a line that has a line feed at its end only has none. -/
theorem lineFeed_not_mem_body (h : '\n' ∉ line.dropLast) : '\n' ∉ body line := by
  rcases List.eq_nil_or_concat line with rfl | ⟨before, last, rfl⟩
  · exact List.not_mem_nil
  rw [List.concat_eq_append] at h ⊢
  rw [List.dropLast_concat] at h
  intro hmem
  by_cases hlast : last = '\n'
  · have hrun : ∀ c ∈ [last], isLineBreak c = true := by simp [hlast, isLineBreak]
    have hbody : body (before ++ [last]) = body before := trimEnd_append_of_forall hrun _
    rw [hbody] at hmem
    exact h ((trimEnd_isPrefix _ _).subset hmem)
  · rcases List.mem_append.1 ((trimEnd_isPrefix _ _).subset hmem) with hbefore | hend
    · exact h hbefore
    · exact hlast (List.mem_singleton.1 hend).symm

/-! ## Replacement and endings -/

/-- Behind its first character a text ends as the whole does. -/
theorem EndsPlain.of_cons {c : Char} (h : EndsPlain (c :: text)) : text.EndsPlain := by
  intro last hlast
  refine h last ?_
  rw [List.getLast?_cons, hlast]
  rfl

/-- A character before a text that is not empty does not change how it ends. -/
theorem EndsPlain.cons (c : Char) (hne : text ≠ []) (h : text.EndsPlain) :
    EndsPlain (c :: text) := by
  cases text with
  | nil => exact absurd rfl hne
  | cons next rest => exact h

/-- One text after another ends as the second does, or as the first if the second is empty. -/
theorem EndsPlain.append {before after : Text} (hbefore : before.EndsPlain)
    (hafter : after.EndsPlain) : (before ++ after).EndsPlain := by
  intro c hc
  rw [List.getLast?_append] at hc
  cases hlast : after.getLast? with
  | none => exact hbefore c (by simpa [hlast] using hc)
  | some last => exact hafter c (by simpa [hlast] using hc)

variable {key new : Text}

/-- With a new text that is not empty, only from nothing comes nothing. -/
theorem eq_nil_of_replaceFrom_eq_nil (hnew : new ≠ [])
    (h : replaceFrom key new 0 text = []) : text = [] := by
  cases text with
  | nil => rfl
  | cons c rest =>
    simp only [replaceFrom] at h
    split at h
    · exact absurd (List.append_eq_nil_iff.1 h).1 hnew
    · cases h

/-- Replacement puts no line break at the end of a text that had none there. -/
theorem EndsPlain.replaceFrom (htext : text.EndsPlain) (hnew : new ≠ []) (hplain : new.EndsPlain)
    (skip : Nat) : (replaceFrom key new skip text).EndsPlain := by
  induction text generalizing skip with
  | nil => exact htext
  | cons c rest ih =>
    have hrest := htext.of_cons
    cases skip with
    | succ skip => exact ih hrest skip
    | zero =>
      simp only [Text.replaceFrom]
      split
      · exact hplain.append (ih hrest _)
      · -- A character that is copied is the last one only if it was the last one.
        by_cases hnil : Text.replaceFrom key new 0 rest = []
        · rw [hnil, ← eq_nil_of_replaceFrom_eq_nil hnew hnil]
          exact htext
        · exact (ih hrest 0).cons c hnil

/-- A run of characters that the key has not does not change whether it occurs. -/
theorem occursIn_append_run (hkey : key ≠ []) (hrun : ∀ c ∈ run, c ∉ key) (text : Text) :
    occursIn key (text ++ run) = occursIn key text := by
  induction run generalizing text with
  | nil => simp
  | cons c run ih =>
    have hbehind := ih (fun d hd ↦ hrun d (List.mem_cons_of_mem _ hd)) []
    have hnothing : occursIn key [] = false := by simpa [occursIn] using hkey
    rw [List.nil_append, hnothing] at hbehind
    rw [occursIn_append_cons (hrun c List.mem_cons_self), hbehind, Bool.or_false]

/-- Replacement copies a run of characters that the key has not. -/
theorem replaceAll_append_run (hkey : key ≠ []) (hrun : ∀ c ∈ run, c ∉ key) (text : Text) :
    replaceAll key new (text ++ run) = replaceAll key new text ++ run := by
  induction run generalizing text with
  | nil => simp
  | cons c run ih =>
    have hbehind := ih (fun d hd ↦ hrun d (List.mem_cons_of_mem _ hd)) []
    have hnothing : replaceAll key new [] = [] := by simp [replaceAll, hkey, Text.replaceFrom]
    rw [List.nil_append, hnothing, List.nil_append] at hbehind
    rw [replaceAll_append_cons hkey (hrun c List.mem_cons_self), hbehind]

end Text

namespace Table

variable {table : Table} {text run line new : Text}

/-- No key of the table is empty or has a line break in it, and no text that it puts is empty or
ends with a line break. -/
def KeepsEndings (table : Table) : Prop :=
  ∀ entry ∈ table, (entry.key ≠ [] ∧ ∀ c ∈ entry.key, isLineBreak c = false) ∧
    entry.text ≠ [] ∧ entry.text.EndsPlain

instance (table : Table) : Decidable table.KeepsEndings :=
  decidable_of_iff
    (∀ entry ∈ table, (entry.key ≠ [] ∧ entry.key.all (!isLineBreak ·) = true) ∧
      entry.text ≠ [] ∧ entry.text.EndsPlain)
    (by simp [KeepsEndings])

/-- The keys of such a table have no character of a run of line breaks. -/
theorem KeepsEndings.not_mem_key (htable : table.KeepsEndings) {entry : Entry}
    (hentry : entry ∈ table) (hrun : ∀ c ∈ run, isLineBreak c = true) :
    ∀ c ∈ run, c ∉ entry.key := by
  intro c hc hmem
  have hplain := (htable entry hentry).1.2 c hmem
  rw [hrun c hc] at hplain
  cases hplain

/-- The shipped table leaves the endings of lines. -/
theorem keepsEndings_v3 : v3.KeepsEndings := by
  unfold v3
  repeat rw [Entry.of_ofList]
  decide +kernel

/-- The table edits what stands before a run of line breaks and leaves the run. -/
theorem edited_append_run (htable : table.KeepsEndings)
    (hrun : ∀ c ∈ run, isLineBreak c = true) (text : Text) :
    table.edited (text ++ run) = table.edited text ++ run := by
  induction table generalizing text with
  | nil => rfl
  | cons entry later ih =>
    have hkey := (htable entry List.mem_cons_self).1.1
    have hapart := htable.not_mem_key List.mem_cons_self hrun
    rw [edited_cons, edited_cons, Text.replaceAll_append_run hkey hapart]
    exact ih (fun other hother ↦ htable other (List.mem_cons_of_mem _ hother)) _

/-- No key reaches into a run of line breaks behind a text. -/
theorem hasKeyIn_append_run (htable : table.KeepsEndings)
    (hrun : ∀ c ∈ run, isLineBreak c = true) (text : Text) :
    table.hasKeyIn (text ++ run) = table.hasKeyIn text := by
  rw [Bool.eq_iff_iff, hasKeyIn, hasKeyIn, List.any_eq_true, List.any_eq_true]
  refine exists_congr fun entry ↦ and_congr_right fun hentry ↦ ?_
  have hkey := (htable entry hentry).1.1
  rw [Text.occursIn_append_run hkey (htable.not_mem_key hentry hrun) text]

/-- The table puts no line break at the end of a text that had none there. -/
theorem endsPlain_edited (htable : table.KeepsEndings) (htext : text.EndsPlain) :
    (table.edited text).EndsPlain := by
  induction table generalizing text with
  | nil => exact htext
  | cons entry later ih =>
    obtain ⟨⟨hkey, -⟩, hne, hplain⟩ := htable entry List.mem_cons_self
    have hfirst : (Text.replaceAll entry.key entry.text text).EndsPlain := by
      simpa [Text.replaceAll, hkey] using htext.replaceFrom hne hplain 0
    rw [edited_cons]
    exact ih (fun other hother ↦ htable other (List.mem_cons_of_mem _ hother)) hfirst

/-- A line is written as its edited body before its ending. -/
theorem edited_eq_body_append_ending (htable : table.KeepsEndings) (line : Text) :
    table.edited line = table.edited (Text.body line) ++ Text.ending line := by
  have hrun := Text.isLineBreak_of_mem_ending line
  rw [← edited_append_run htable hrun, Text.body_append_ending]

/-- The body of an edited line is the edited body. -/
theorem body_edited (htable : table.KeepsEndings) (line : Text) :
    Text.body (table.edited line) = table.edited (Text.body line) := by
  rw [edited_eq_body_append_ending htable line]
  exact Text.body_append (endsPlain_edited htable (Text.endsPlain_body line))
    (Text.isLineBreak_of_mem_ending line)

/-- What a table makes of a line, without the ending, is what it makes of the body. -/
theorem apply_body (htable : table.KeepsEndings) (happly : table.apply line = some new) :
    table.apply (Text.body line) = some (Text.body new) := by
  obtain ⟨hkey, rfl⟩ := apply_eq_some_iff.1 happly
  have hrun := Text.isLineBreak_of_mem_ending line
  refine apply_eq_some_iff.2 ⟨?_, (body_edited htable line).symm⟩
  rw [← hasKeyIn_append_run htable hrun, Text.body_append_ending]
  exact hkey

end Table

end LineMigration
