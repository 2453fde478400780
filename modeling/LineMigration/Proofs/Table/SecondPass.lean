import LineMigration.Proofs.Table.OnePass

/-!
# A second pass

After one pass over a delimited line a key can only be found within the text of an entry: an
occurrence that reached over an edge of a text is ruled out for every two entries
(`Table.Contained`), and one in the characters that were copied would have been found the first
time. So a second pass finds nothing exactly if the entries that replaced something did so with
texts in which no key occurs (`apply_edited_eq_none_iff`).
-/

namespace LineMigration

open Table (isLetter?)
open Text (overhang endsFrom joints)

/-! ## Two entries -/

/-- Where the key of one entry meets the new text of another, it stays within this text. -/
structure Entry.StaysWithin (entry other : Entry) : Prop where
  /-- A key that begins in the new text and goes on behind it does so by a letter, and the key that
  the new text took the place of ends with a letter. -/
  behind : ∀ first ∈ entry.key.head?, ∀ tail ∈ endsFrom first other.text,
    ∀ beyond ∈ overhang entry.key tail, beyond ≠ [] →
      isLetter? beyond.head? = true ∧ isLetter? other.key.getLast? = true
  /-- Behind a character that is no letter, the key does not go on as the new text begins. -/
  into : ∀ part ∈ joints entry.key, overhang part other.text = none

instance (entry other : Entry) : Decidable (entry.StaysWithin other) :=
  decidable_of_iff
    ((entry.key.head?.all fun first ↦ ∀ tail ∈ endsFrom first other.text,
        ∀ beyond ∈ overhang entry.key tail, beyond ≠ [] →
          isLetter? beyond.head? = true ∧ isLetter? other.key.getLast? = true) = true ∧
      ∀ part ∈ joints entry.key, overhang part other.text = none)
    ⟨fun ⟨behind, into⟩ ↦ ⟨by simpa [Option.all_eq_true] using behind, into⟩,
      fun h ↦ ⟨by simpa [Option.all_eq_true] using h.behind, h.into⟩⟩

namespace Table

/-- Every key stays within the new texts that it meets. -/
def Contained (table : Table) : Prop :=
  ∀ entry ∈ table, ∀ other ∈ table, entry.StaysWithin other

instance (table : Table) : Decidable table.Contained :=
  inferInstanceAs (Decidable (∀ entry ∈ table, ∀ other ∈ table, entry.StaysWithin other))

/-- The keys of the shipped table stay within its texts. -/
theorem contained_v3 : v3.Contained := by
  unfold v3
  repeat rw [Entry.of_ofList]
  decide +kernel

/-! ## The entries that replace something -/

/-- The entries that find their key, each in what the entries before it made. -/
def replacing : Table → Text → Table
  | [], _ => []
  | entry :: later, line =>
    match entry.apply line with
    | none => replacing later line
    | some changed => entry :: replacing later changed

variable {table done : Table} {entry found : Entry} {line before rest : Text}
  {pieces : List Piece}

/-- The first entry replaces something if its key occurs, and the others see its result. -/
theorem mem_replacing_cons_iff {first : Entry} {later : Table} :
    entry ∈ replacing (first :: later) line ↔
      entry = first ∧ first.key <:+: line ∨
        entry ∈ replacing later (Text.replaceAll first.key first.text line) := by
  rw [← Text.occursIn_iff_isInfix, replacing, Entry.apply]
  by_cases hoccurs : Text.occursIn first.key line = true
  · simp [hoccurs]
  · -- Replacing a key that does not occur gives the line back.
    have hnone : Text.occursIn first.key line = false := by simpa using hoccurs
    simp [hnone, Text.replaceAll_of_not_occursIn hnone]

/-- An entry replaces something exactly if its key occurs in what the entries before it made. -/
theorem mem_replacing_iff :
    entry ∈ table.replacing line ↔
      ∃ earlier later, table = earlier ++ entry :: later ∧
        entry.key <:+: edited earlier line := by
  induction table generalizing line with
  | nil => simp [replacing]
  | cons first rest ih =>
    rw [mem_replacing_cons_iff, ih]
    constructor
    · rintro (⟨rfl, hkey⟩ | ⟨earlier, later, rfl, hkey⟩)
      · exact ⟨[], rest, rfl, hkey⟩
      · exact ⟨first :: earlier, later, rfl, by rwa [edited_cons]⟩
    · rintro ⟨_ | ⟨other, earlier⟩, later, hsplit, hkey⟩
      · obtain ⟨rfl, -⟩ := List.cons.inj hsplit
        exact .inl ⟨rfl, hkey⟩
      · obtain ⟨rfl, rfl⟩ := List.cons.inj hsplit
        rw [edited_cons] at hkey
        exact .inr ⟨earlier, later, rfl, hkey⟩

/-- What replaces something is an entry of the table. -/
theorem mem_of_mem_replacing (h : entry ∈ table.replacing line) : entry ∈ table := by
  obtain ⟨earlier, later, rfl, -⟩ := mem_replacing_iff.1 h
  simp

/-! ## Where keys are after the pass -/

/-- What is left of a key behind a text is nothing exactly if the key begins the text. -/
theorem isPrefix_of_overhang_eq_nil {key text : Text} (h : overhang key text = some []) :
    key <+: text := by
  induction text generalizing key with
  | nil => cases key with
    | nil => exact List.nil_prefix
    | cons k key => cases h
  | cons c text ih =>
    cases key with
    | nil => exact List.nil_prefix
    | cons k key =>
      rw [overhang] at h
      split at h
      · next heq => exact heq ▸ (List.prefix_cons_inj k).2 (ih h)
      · cases h

/-- A key in two texts, one behind the other, begins in the first or lies in the second. -/
theorem isInfix_append_cases {key text after : Text} (h : key <:+: text ++ after) :
    (∃ lead tail, text = lead ++ tail ∧ tail ≠ [] ∧ key <+: tail ++ after) ∨ key <:+: after := by
  induction text with
  | nil => exact .inr h
  | cons c text ih =>
    rcases List.infix_cons_iff.1 h with hhere | hlater
    · exact .inl ⟨[], c :: text, rfl, List.cons_ne_nil _ _, hhere⟩
    · rcases ih hlater with ⟨lead, tail, rfl, htail, hbegins⟩ | hafter
      · exact .inl ⟨c :: lead, tail, rfl, htail, hbegins⟩
      · exact .inr hafter

/-- A key that begins in the text of an entry ends there. -/
theorem Cut.isPrefix_tail (hsep : table.Separate) (hwithin : entry.StaysWithin found)
    (hkey : entry.key ≠ []) (h : Cut table rest pieces) (hmem : found ∈ table)
    (hline : Delimited table (before ++ (found.key ++ rest))) {lead tail : Text}
    (htext : found.text = lead ++ tail) (htail : tail ≠ [])
    (hbegins : entry.key <+: tail ++ render done pieces) : entry.key <+: tail := by
  obtain ⟨first, hfirst, hends, beyond, hover, hbehind⟩ :=
    Text.exists_end_of_isPrefix hkey htail hbegins
  by_cases hbeyond : beyond = []
  · exact isPrefix_of_overhang_eq_nil (hbeyond ▸ hover)
  · obtain ⟨hgoesOn, hlast⟩ :=
      hwithin.behind first hfirst tail (htext ▸ hends) beyond hover hbeyond
    exact absurd hbehind (h.not_isPrefix_behind hsep hmem hline hlast hgoesOn)

/-- After the pass a key of the table is only found within a new text. -/
theorem Cut.exists_text_of_isInfix (hsep : table.Separate) (hcontained : table.Contained)
    (hentry : entry ∈ table) (h : Cut table line pieces)
    (hline : Delimited table (before ++ line)) (hoccurs : entry.key <:+: render table pieces) :
    ∃ found, Piece.key found ∈ pieces ∧ entry.key <:+: found.text := by
  have hkey := hsep.key_ne_nil entry hentry
  induction h generalizing before with
  | nil => exact absurd (List.infix_nil.1 hoccurs) hkey
  | @copied c rest pieces hnone hcut ih =>
    have hnext : Delimited table (before ++ [c] ++ rest) := by simpa using hline
    have hinto := fun found hfound ↦ (hcontained entry hentry found hfound).into
    rw [render_copied] at hoccurs
    rcases List.infix_cons_iff.1 hoccurs with hhere | hlater
    · exact absurd hhere (hcut.not_isPrefix_copied hsep.key_ne_nil hinto hentry hnone hline)
    · obtain ⟨found, hfound, htext⟩ := ih hnext hlater
      exact ⟨found, List.mem_cons_of_mem _ hfound, htext⟩
  | @key other rest pieces hother hcut ih =>
    have hmem := mem_of_firstAt? hother
    have hnext : Delimited table (before ++ other.key ++ rest) := by rwa [List.append_assoc]
    rw [render_key_of_mem hmem] at hoccurs
    rcases isInfix_append_cases hoccurs with ⟨lead, tail, htext, htail, hbegins⟩ | hlater
    · have htail := hcut.isPrefix_tail hsep (hcontained entry hentry other hmem) hkey hmem hline
        htext htail hbegins
      have hend : tail <:+: lead ++ tail := (List.suffix_append _ _).isInfix
      exact ⟨other, List.mem_cons_self, htext ▸ htail.isInfix.trans hend⟩
    · obtain ⟨found, hfound, htext⟩ := ih hnext hlater
      exact ⟨found, List.mem_cons_of_mem _ hfound, htext⟩

/-- An entry whose key is in the line before it is applied has a piece of its own. -/
theorem Finds.mem_of_isInfix (hkey : entry.key ≠ []) (h : Finds done entry pieces)
    (hoccurs : entry.key <:+: render done pieces) : Piece.key entry ∈ pieces := by
  induction h with
  | nil => exact absurd (List.infix_nil.1 hoccurs) hkey
  | own => exact List.mem_cons_self
  | @passed piece pieces hnowhere _ ih =>
    rcases isInfix_append_cases hoccurs with ⟨lead, tail, hsplit, htail, hbegins⟩ | hlater
    · exact absurd hbegins (hnowhere lead tail hsplit htail)
    · exact List.mem_cons_of_mem _ (ih hlater)

/-- The keys that a pass finds are those of the table. -/
theorem Cut.mem_table (h : Cut table line pieces) (hpiece : Piece.key found ∈ pieces) :
    found ∈ table := by
  induction h with
  | nil => cases hpiece
  | copied _ _ ih => exact ih (by simpa using hpiece)
  | key hother _ ih =>
    rcases List.mem_cons.1 hpiece with hhere | hlater
    · cases hhere
      exact mem_of_firstAt? hother
    · exact ih hlater

/-- A piece is part of the line. -/
theorem after_isInfix_render {piece : Piece} (h : piece ∈ pieces) :
    piece.after done <:+: render done pieces := by
  rw [render, List.flatMap_def]
  exact List.infix_of_mem_flatten (List.mem_map_of_mem h)

/-- In a delimited line the entries that replace something are those whose key the pass finds. -/
theorem Cut.mem_replacing_iff (hsep : table.Separate) (h : Cut table line pieces)
    (hline : table.Delimited line) :
    entry ∈ table.replacing line ↔ Piece.key entry ∈ pieces := by
  rw [Table.mem_replacing_iff]
  constructor
  · rintro ⟨earlier, later, hsplit, hoccurs⟩
    have hkey := hsep.key_ne_nil entry (by simp [hsplit])
    rw [h.edited_eq_render hsep hline hsplit] at hoccurs
    exact (h.finds_next hsep hline hsplit).mem_of_isInfix hkey hoccurs
  · intro hpiece
    -- Before its first place in the table the entry was not applied, so its key still stands.
    obtain ⟨earlier, later, hsplit, hnot⟩ := List.eq_append_cons_of_mem (h.mem_table hpiece)
    have hstands : Piece.after earlier (.key entry) = entry.key := by simp [Piece.after, hnot]
    refine ⟨earlier, later, hsplit, ?_⟩
    rw [h.edited_eq_render hsep hline hsplit, ← hstands]
    exact after_isInfix_render hpiece

/-! ## The second pass -/

/-- With keys that stay within the new texts, what a second pass over a delimited line finds are
the keys in the texts of the entries that replaced something. -/
theorem apply_edited_eq_none_iff (hsep : table.Separate) (hcontained : table.Contained)
    (hline : table.Delimited line) :
    table.apply (table.edited line) = none ↔
      ∀ entry ∈ table.replacing line, table.hasKeyIn entry.text = false := by
  obtain ⟨pieces, hcut⟩ := exists_cut hsep.key_ne_nil line
  simp only [apply_eq_none_iff, hasKeyIn_eq_false_iff, hcut.mem_replacing_iff hsep hline,
    hcut.edited_eq_render hsep hline (List.append_nil table).symm]
  constructor
  · intro hnone found hpiece entry hentry hoccurs
    have htext : Piece.after table (.key found) = found.text := by
      simp [Piece.after, hcut.mem_table hpiece]
    refine hnone entry hentry (hoccurs.trans ?_)
    rw [← htext]
    exact after_isInfix_render hpiece
  · intro hnone entry hentry hoccurs
    have hwhole : Delimited table ([] ++ line) := hline
    obtain ⟨found, hpiece, htext⟩ :=
      hcut.exists_text_of_isInfix hsep hcontained hentry hwhole hoccurs
    exact hnone found hpiece entry hentry htext

/-- An entry whose key opens a call. -/
def OpensCall (entry : Entry) : Prop := entry.key.getLast? = some '('

instance (entry : Entry) : Decidable (OpensCall entry) :=
  inferInstanceAs (Decidable (_ = _))

/-- The namespaced text of a call form has no key of the shipped table in it. -/
theorem hasKeyIn_text_of_opensCall :
    ∀ entry ∈ v3, OpensCall entry → v3.hasKeyIn entry.text = false := by
  unfold v3
  repeat rw [Entry.of_ofList]
  decide +kernel

/-- A delimited line with a key of the shipped table in it is rewritten. A second pass over the
result finds nothing exactly if no key of the table occurs in the text of an entry that replaced
something: so it is where only call forms were replaced, and not where an entry keeps its key in
its text. -/
theorem second_pass_v3 (hline : v3.Delimited line) (hkey : v3.hasKeyIn line = true) :
    ∃ once, v3.apply line = some once ∧
      (v3.apply once = none ↔
        ∀ entry ∈ v3.replacing line, v3.hasKeyIn entry.text = false) ∧
      ((∀ entry ∈ v3.replacing line, OpensCall entry) → v3.apply once = none) ∧
      ∀ entry ∈ v3.replacing line, entry.key <:+: entry.text → v3.apply once ≠ none := by
  have hiff := apply_edited_eq_none_iff separate_v3 contained_v3 hline
  refine ⟨v3.edited line, apply_eq_some_iff.2 ⟨hkey, rfl⟩, hiff, ?_, ?_⟩
  · intro hcalls
    refine hiff.2 fun entry hentry ↦ ?_
    exact hasKeyIn_text_of_opensCall entry (mem_of_mem_replacing hentry) (hcalls entry hentry)
  · intro entry hentry hkept hnone
    have htext := hasKeyIn_eq_false_iff.1 (hiff.1 hnone entry hentry)
    exact htext entry (mem_of_mem_replacing hentry) hkept

/-- A call form settles after one pass, while `ghNotify` gets its namespace once more. -/
theorem second_pass_v3_smoke_ghNotify :
    let stable := "withStatusContext.smoke(".toList
    let growing := "ghNotify()".toList
    (v3.Delimited stable ∧ v3.hasKeyIn stable = true ∧
      ∃ once, v3.apply stable = some once ∧ v3.apply once = none) ∧
    (v3.Delimited growing ∧ v3.hasKeyIn growing = true ∧
      ∃ once, v3.apply growing = some once ∧ v3.apply once ≠ none) := by
  intro stable growing
  have hstable : v3.Delimited stable ∧ v3.hasKeyIn stable = true ∧
      ∀ entry ∈ v3.replacing stable, OpensCall entry := by
    unfold v3
    repeat rw [Entry.of_ofList]
    decide +kernel
  have hgrowing : v3.Delimited growing ∧ v3.hasKeyIn growing = true ∧
      ∃ entry ∈ v3.replacing growing, entry.key <:+: entry.text := by
    unfold v3
    repeat rw [Entry.of_ofList]
    decide +kernel
  obtain ⟨hline, hkey, hcalls⟩ := hstable
  obtain ⟨hline', hkey', entry, hentry, hkept⟩ := hgrowing
  obtain ⟨once, happly, -, hcall, -⟩ := second_pass_v3 hline hkey
  obtain ⟨once', happly', -, -, hagain⟩ := second_pass_v3 hline' hkey'
  exact ⟨⟨hline, hkey, once, happly, hcall hcalls⟩,
    ⟨hline', hkey', once', happly', hagain entry hentry hkept⟩⟩

end Table

end LineMigration
