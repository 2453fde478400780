import Mathlib.Data.List.Basic
import Mathlib.Data.List.Induction
import LineMigration.Proofs.Table.Apply
import LineMigration.Proofs.Table.Separate

/-!
# One entry after another is one pass

A pass from the left cuts a line into `Piece`s: characters that are copied and keys that are found.
Applying entries one after another keeps to this cut if the entries do not meet and the keys of
the line are delimited: `render done pieces` is the line after the entries `done`, in which the
keys of these entries have given way to their texts and all other pieces stand as they were. The
next entry finds its key at its own pieces and nowhere else (`Cut.finds`), so after the whole table
the line is that of the pass (`edited_eq_scan`).
-/

namespace LineMigration.Table

/-! ## The pieces of a line -/

/-- A part of a line in the eyes of a pass: a character that is copied, or the key of an entry. -/
inductive Piece where
  | copied (c : Char)
  | key (entry : Entry)

/-- A piece after some entries were applied. -/
def Piece.after (done : Table) : Piece → Text
  | .copied c => [c]
  | .key entry => if entry ∈ done then entry.text else entry.key

/-- A line of such pieces after some entries were applied. -/
def render (done : Table) (pieces : List Piece) : Text := pieces.flatMap (·.after done)

/-- `Cut table line pieces` says that a pass over the line meets these pieces. -/
inductive Cut (table : Table) : Text → List Piece → Prop where
  | nil : Cut table [] []
  | copied {c : Char} {rest : Text} {pieces : List Piece} :
      table.firstAt? (c :: rest) = none → Cut table rest pieces →
      Cut table (c :: rest) (.copied c :: pieces)
  | key {entry : Entry} {rest : Text} {pieces : List Piece} :
      table.firstAt? (entry.key ++ rest) = some entry → Cut table rest pieces →
      Cut table (entry.key ++ rest) (.key entry :: pieces)

variable {table done later : Table} {entry found : Entry} {line before rest : Text}
  {pieces : List Piece}

@[simp] theorem render_nil (done : Table) : render done [] = [] := rfl

theorem render_cons (piece : Piece) (pieces : List Piece) :
    render done (piece :: pieces) = piece.after done ++ render done pieces := rfl

@[simp] theorem render_copied (done : Table) (c : Char) (pieces : List Piece) :
    render done (.copied c :: pieces) = c :: render done pieces := rfl

/-- The key of an entry that was applied has given way to its text. -/
theorem render_key_of_mem (h : found ∈ done) (pieces : List Piece) :
    render done (.key found :: pieces) = found.text ++ render done pieces := by
  simp [render, Piece.after, h]

/-- The key of an entry that was not applied stands as it was. -/
theorem render_key_of_not_mem (h : found ∉ done) (pieces : List Piece) :
    render done (.key found :: pieces) = found.key ++ render done pieces := by
  simp [render, Piece.after, h]

/-- Before the first entry the pieces are the line. -/
theorem Cut.render_eq (h : Cut table line pieces) : render [] pieces = line := by
  induction h with
  | nil => rfl
  | copied _ _ ih => rw [render_copied, ih]
  | key _ _ ih => rw [render_key_of_not_mem List.not_mem_nil, ih]

/-- After the last entry the pieces are what the pass gives. -/
theorem Cut.render_eq_scan (hkeys : ∀ entry ∈ table, entry.key ≠ [])
    (h : Cut table line pieces) : render table pieces = table.scan line := by
  induction h with
  | nil => rfl
  | copied hnone _ ih => rw [render_copied, ih, scan_cons hnone]
  | key hfound _ ih =>
    have hmem := mem_of_firstAt? hfound
    rw [render_key_of_mem hmem, ih, scan_key_append (hkeys _ hmem) hfound]

/-- Every line is cut into pieces. -/
theorem exists_cut (hkeys : ∀ entry ∈ table, entry.key ≠ []) (line : Text) :
    ∃ pieces, Cut table line pieces := by
  cases line with
  | nil => exact ⟨[], .nil⟩
  | cons c rest =>
    cases hfirst : table.firstAt? (c :: rest) with
    | none =>
      obtain ⟨pieces, hcut⟩ := exists_cut hkeys rest
      exact ⟨_, .copied hfirst hcut⟩
    | some entry =>
      obtain ⟨after, hsplit⟩ := isPrefix_of_firstAt? hfirst
      have hkey := List.length_pos_iff.2 (hkeys entry (mem_of_firstAt? hfirst))
      have hshorter : after.length < (c :: rest).length := by
        rw [← hsplit, List.length_append]
        omega
      obtain ⟨pieces, hcut⟩ := exists_cut hkeys after
      rw [← hsplit] at hfirst ⊢
      exact ⟨_, .key hfirst hcut⟩
termination_by line.length
decreasing_by
  · simp
  · exact hshorter

/-- Where no letter begins a line, none begins it after some entries. -/
theorem Cut.head?_render (hsep : table.Separate) (h : Cut table line pieces) (done : Table)
    (hhead : isLetter? line.head? = false) : isLetter? (render done pieces).head? = false := by
  cases h with
  | nil => rfl
  | copied => exact hhead
  | @key found rest pieces hfound hcut =>
    have hmem := mem_of_firstAt? hfound
    rw [List.head?_append_of_ne_nil _ (hsep.key_ne_nil found hmem)] at hhead
    by_cases hdone : found ∈ done
    · obtain ⟨hne, htext⟩ := hsep.head found hmem hhead
      rwa [render_key_of_mem hdone, List.head?_append_of_ne_nil _ hne]
    · rwa [render_key_of_not_mem hdone,
        List.head?_append_of_ne_nil _ (hsep.key_ne_nil found hmem)]

/-! ## What the next entry finds -/

/-- A part of a key that goes on into the pieces of a line after some entries goes on into the
line as it was: it would have to go on into a new text behind a character that is no letter. -/
theorem Cut.isPrefix_of_render (hkeys : ∀ entry ∈ table, entry.key ≠ [])
    (hinto : ∀ found ∈ done, ∀ part ∈ Text.joints entry.key, Text.overhang part found.text = none)
    (h : Cut table line pieces) (hline : Delimited table (before ++ line)) {lead part : Text}
    (hkey : entry.key = lead ++ part) (hlead : lead ≠ [])
    (hlast : lead.getLast? = before.getLast?) (hpart : part <+: render done pieces) :
    part <+: line := by
  induction h generalizing before lead part with
  | nil => exact hpart
  | @copied c rest pieces _ _ ih =>
    cases part with
    | nil => exact List.nil_prefix
    | cons d part =>
      obtain ⟨rfl, hrest⟩ := List.cons_prefix_cons.1 hpart
      have hnext : Delimited table (before ++ [d] ++ rest) := by simpa using hline
      have hlonger : entry.key = lead ++ [d] ++ part := by simpa using hkey
      exact (List.prefix_cons_inj d).2 (ih hnext hlonger (by simp) (by simp) hrest)
  | @key found rest pieces hfound _ ih =>
    have hmem := mem_of_firstAt? hfound
    have hne := hkeys found hmem
    by_cases hdone : found ∈ done
    · -- The part would begin as the new text does, behind a character that is no letter.
      rw [render_key_of_mem hdone] at hpart
      cases part with
      | nil => exact List.nil_prefix
      | cons d part =>
        obtain ⟨beyond, hover, -⟩ := Text.exists_overhang_of_isPrefix hpart
        have hletter : isLetter? lead.getLast? = false := by
          rw [hlast]
          exact (hline found hmem before rest (List.append_assoc _ _ _).symm).1
        have hjoint : d :: part ∈ Text.joints entry.key := by
          rw [hkey]
          exact Text.mem_joints hlead hletter (List.cons_ne_nil _ _)
        rw [hinto found hdone _ hjoint] at hover
        cases hover
    · rw [render_key_of_not_mem hdone] at hpart
      rcases List.prefix_or_prefix_of_prefix hpart (List.prefix_append _ _) with
        hwithin | ⟨beyond, rfl⟩
      · exact hwithin.trans (List.prefix_append _ _)
      · have hnext : Delimited table (before ++ found.key ++ rest) := by
          rwa [List.append_assoc]
        have hlonger : entry.key = lead ++ found.key ++ beyond := by
          rwa [List.append_assoc]
        have hbeyond := (List.prefix_append_right_inj found.key).1 hpart
        refine (List.prefix_append_right_inj found.key).2 (ih hnext hlonger ?_ ?_ hbeyond)
        · simp [hne]
        · rw [List.getLast?_append_of_ne_nil _ hne, List.getLast?_append_of_ne_nil _ hne]

/-- No entry finds its key at a character that the pass copies. -/
theorem Cut.not_isPrefix_copied (hkeys : ∀ entry ∈ table, entry.key ≠ [])
    (hinto : ∀ found ∈ done, ∀ part ∈ Text.joints entry.key, Text.overhang part found.text = none)
    (hmem : entry ∈ table) {c : Char} (h : Cut table rest pieces)
    (hnone : firstAt? table (c :: rest) = none) (hline : Delimited table (before ++ c :: rest)) :
    ¬ entry.key <+: c :: render done pieces := by
  intro hprefix
  rcases List.prefix_cons_iff.1 hprefix with hnil | ⟨part, hkey, hpart⟩
  · exact hkeys entry hmem hnil
  · have hnext : Delimited table (before ++ [c] ++ rest) := by simpa using hline
    have hsplit : entry.key = [c] ++ part := hkey
    have hrest := h.isPrefix_of_render hkeys hinto hnext hsplit (by simp) (by simp) hpart
    refine firstAt?_eq_none_iff.1 hnone entry hmem ?_
    rw [hkey]
    exact (List.prefix_cons_inj c).2 hrest

/-- Behind a key that ends with a letter no letter stands after some entries, so nothing that
begins with a letter goes on there. -/
theorem Cut.not_isPrefix_behind (hsep : table.Separate) (h : Cut table rest pieces)
    (hmem : found ∈ table) (hline : Delimited table (before ++ (found.key ++ rest)))
    (hends : isLetter? found.key.getLast? = true) {beyond : Text}
    (hletter : isLetter? beyond.head? = true) : ¬ beyond <+: render done pieces := by
  intro hbehind
  have hrest := (hline found hmem before rest (List.append_assoc _ _ _).symm).2 hends
  have hrender := h.head?_render hsep done hrest
  cases beyond with
  | nil => cases hletter
  | cons d beyond =>
    obtain ⟨more, hmore⟩ := hbehind
    rw [← hmore, List.cons_append, List.head?_cons] at hrender
    rw [List.head?_cons, hrender] at hletter
    cases hletter

/-- No entry finds its key in the text of an entry before it, nor from there on. -/
theorem Cut.not_isPrefix_text (hsep : (done ++ entry :: later).Separate)
    (h : Cut (done ++ entry :: later) rest pieces) (hdone : found ∈ done)
    (hline : Delimited (done ++ entry :: later) (before ++ (found.key ++ rest)))
    {lead tail : Text} (htext : found.text = lead ++ tail) (htail : tail ≠ []) :
    ¬ entry.key <+: tail ++ render done pieces := by
  intro hprefix
  have hmem : found ∈ done ++ entry :: later := List.mem_append_left _ hdone
  have hclear := (List.pairwise_append.1 hsep.clear).2.2 found hdone entry List.mem_cons_self
  obtain ⟨first, hfirst, hends, beyond, hover, hbehind⟩ :=
    Text.exists_end_of_isPrefix (hsep.key_ne_nil entry (by simp)) htail hprefix
  obtain ⟨hgoesOn, hlast⟩ := hclear.inside first hfirst tail (htext ▸ hends) beyond hover
  exact h.not_isPrefix_behind hsep hmem hline hlast hgoesOn hbehind

/-- No entry finds its key in the key of an entry behind it, nor from there on. -/
theorem Cut.not_isPrefix_key (hsep : (done ++ entry :: later).Separate)
    (h : Cut (done ++ entry :: later) rest pieces) (hlater : found ∈ later)
    (hfound : ¬ entry.key <+: found.key ++ rest)
    (hline : Delimited (done ++ entry :: later) (before ++ (found.key ++ rest)))
    {lead tail : Text} (hkey : found.key = lead ++ tail) (htail : tail ≠ []) :
    ¬ entry.key <+: tail ++ render done pieces := by
  intro hprefix
  have hsource : entry.key <+: tail ++ rest := by
    rcases List.prefix_or_prefix_of_prefix hprefix (List.prefix_append _ _) with
      hwithin | ⟨part, hsplit⟩
    · exact hwithin.trans (List.prefix_append _ _)
    · rw [← hsplit] at hprefix ⊢
      have hnext : Delimited (done ++ entry :: later) (before ++ found.key ++ rest) := by
        rwa [List.append_assoc]
      have hlast : tail.getLast? = (before ++ found.key).getLast? := by
        rw [hkey, ← List.append_assoc, List.getLast?_append_of_ne_nil _ htail]
      have hpart := (List.prefix_append_right_inj tail).1 hprefix
      exact (List.prefix_append_right_inj tail).2
        (h.isPrefix_of_render hsep.key_ne_nil hsep.into hnext hsplit.symm htail hlast hpart)
  cases hlead : lead with
  | nil =>
    rw [hlead, List.nil_append] at hkey
    exact hfound (hkey ▸ hsource)
  | cons c others =>
    -- The key of the entry would stand in the line, behind a character that is no letter.
    have hne : lead ≠ [] := by simp [hlead]
    obtain ⟨after, hafter⟩ := hsource
    have hoccurs : before ++ (found.key ++ rest) = before ++ lead ++ entry.key ++ after := by
      simp [hkey, ← hafter]
    have hletter := (hline entry (by simp) (before ++ lead) after hoccurs).1
    rw [List.getLast?_append_of_ne_nil _ hne] at hletter
    have hjoint : tail ∈ Text.joints found.key := hkey ▸ Text.mem_joints hne hletter htail
    have hclear := (List.pairwise_cons.1 (List.pairwise_append.1 hsep.clear).2.1).1 found hlater
    obtain ⟨beyond, hover, -⟩ := Text.exists_overhang_of_isPrefix ⟨after, hafter⟩
    rw [hclear.apart tail hjoint] at hover
    cases hover

/-! ## The pass entry by entry -/

/-- An entry that is found and not applied yet is the next one, or its key does not stand there. -/
theorem eq_or_not_isPrefix_of_firstAt? {text : Text}
    (h : firstAt? (done ++ entry :: later) text = some found) (hdone : found ∉ done) :
    found = entry ∨ found ∈ later ∧ ¬ entry.key <+: text := by
  rw [firstAt?, List.find?_append, Option.or_eq_some_iff] at h
  rcases h with hfirst | ⟨-, hfirst⟩
  · exact absurd (List.mem_of_find?_eq_some hfirst) hdone
  · rw [List.find?_cons] at hfirst
    split at hfirst
    · exact .inl (Option.some.inj hfirst).symm
    · next hnot =>
      refine .inr ⟨List.mem_of_find?_eq_some hfirst, fun hprefix ↦ ?_⟩
      rw [List.isPrefixOf_iff_prefix.2 hprefix] at hnot
      cases hnot

/-- `Finds done entry pieces` says that among the pieces of a line after the entries `done`, the
next entry finds its key at its own pieces, and that the key begins nowhere else. -/
inductive Finds (done : Table) (entry : Entry) : List Piece → Prop where
  | nil : Finds done entry []
  | own {pieces : List Piece} : entry ∉ done → Finds done entry pieces →
      Finds done entry (.key entry :: pieces)
  | passed {piece : Piece} {pieces : List Piece} :
      (∀ lead tail : Text, piece.after done = lead ++ tail → tail ≠ [] →
        ¬ entry.key <+: tail ++ render done pieces) →
      Finds done entry pieces → Finds done entry (piece :: pieces)

/-- In a delimited line the next entry finds its own pieces only. -/
theorem Cut.finds (hsep : (done ++ entry :: later).Separate)
    (h : Cut (done ++ entry :: later) line pieces)
    (hline : Delimited (done ++ entry :: later) (before ++ line)) : Finds done entry pieces := by
  have hmem : entry ∈ done ++ entry :: later := by simp
  induction h generalizing before with
  | nil => exact .nil
  | @copied c rest pieces hnone hcut ih =>
    have hnext : Delimited (done ++ entry :: later) (before ++ [c] ++ rest) := by
      simpa using hline
    refine .passed ?_ (ih hnext)
    intro lead tail hsplit htail
    have hwhole : tail = [c] := by
      rcases List.append_eq_singleton_iff.1 hsplit.symm with ⟨-, rfl⟩ | ⟨-, rfl⟩
      · rfl
      · exact absurd rfl htail
    rw [hwhole]
    exact hcut.not_isPrefix_copied hsep.key_ne_nil hsep.into hmem hnone hline
  | @key found rest pieces hfound hcut ih =>
    have hnext : Delimited (done ++ entry :: later) (before ++ found.key ++ rest) := by
      rwa [List.append_assoc]
    by_cases hdone : found ∈ done
    · refine .passed ?_ (ih hnext)
      intro lead tail hsplit htail
      simp only [Piece.after, hdone, if_true] at hsplit
      exact hcut.not_isPrefix_text hsep hdone hline hsplit htail
    · rcases eq_or_not_isPrefix_of_firstAt? hfound hdone with rfl | ⟨hlater, hnot⟩
      · exact .own hdone (ih hnext)
      · refine .passed ?_ (ih hnext)
        intro lead tail hsplit htail
        simp only [Piece.after, hdone, if_false] at hsplit
        exact hcut.not_isPrefix_key hsep hlater hnot hline hsplit htail

/-- A piece at which the key of an entry does not begin is not its own, if it was not applied. -/
theorem ne_key_of_nowhere (hkey : entry.key ≠ []) {piece : Piece}
    (hnowhere : ∀ lead tail : Text, piece.after done = lead ++ tail → tail ≠ [] →
      ¬ entry.key <+: tail ++ render done pieces) (hdone : entry ∉ done) : piece ≠ .key entry := by
  rintro rfl
  exact hnowhere [] entry.key (by simp [Piece.after, hdone]) hkey (List.prefix_append _ _)

/-- An entry that is applied counts for its own pieces only. -/
theorem mem_concat_iff (h : entry ∉ done → Piece.key found ≠ .key entry) :
    found ∈ done ++ [entry] ↔ found ∈ done := by
  simp only [List.mem_append, List.mem_singleton, or_iff_left_iff_imp]
  rintro rfl
  by_contra hnot
  exact h hnot rfl

/-- An entry leaves the pieces that are not its own. -/
theorem Piece.after_concat {piece : Piece} (h : entry ∉ done → piece ≠ .key entry) :
    piece.after (done ++ [entry]) = piece.after done := by
  cases piece with
  | copied c => rfl
  | key found => simp only [Piece.after, mem_concat_iff h]

/-- The next entry turns its own pieces from keys into texts and leaves everything else. -/
theorem Finds.replaceFrom_render (hkey : entry.key ≠ []) (h : Finds done entry pieces) :
    Text.replaceFrom entry.key entry.text 0 (render done pieces) =
      render (done ++ [entry]) pieces := by
  induction h with
  | nil => rfl
  | own hnot _ ih =>
    rw [render_key_of_not_mem hnot, Text.replaceFrom_key_append hkey, ih,
      render_key_of_mem (by simp)]
  | @passed piece pieces hnowhere _ ih =>
    rw [render_cons, render_cons, Piece.after_concat (ne_key_of_nowhere hkey hnowhere), ← ih]
    exact Text.replaceFrom_append_of_forall hnowhere

/-- The next entry of a table finds its own pieces only. -/
theorem Cut.finds_next (hsep : table.Separate) (h : Cut table line pieces)
    (hline : table.Delimited line) (hsplit : table = done ++ entry :: later) :
    Finds done entry pieces := by
  rw [hsplit] at hsep h hline
  have hwhole : Delimited (done ++ entry :: later) ([] ++ line) := hline
  exact h.finds hsep hwhole

/-- Entry by entry, the pieces that are keys become texts. -/
theorem Cut.edited_eq_render (hsep : table.Separate) (h : Cut table line pieces)
    (hline : table.Delimited line) (hsplit : table = done ++ later) :
    done.edited line = render done pieces := by
  induction done using List.reverseRecOn generalizing later with
  | nil => exact h.render_eq.symm
  | append_singleton done entry ih =>
    have hnext : table = done ++ entry :: later := by rw [hsplit, List.append_assoc]; rfl
    have hkey : entry.key ≠ [] := hsep.key_ne_nil entry (by simp [hnext])
    have hempty : entry.key.isEmpty = false := by simpa using hkey
    rw [edited_concat, ih hnext, Text.replaceAll, hempty, if_neg Bool.false_ne_true,
      (h.finds_next hsep hline hnext).replaceFrom_render hkey]

/-- With entries that do not meet, a delimited line is written as one pass over it gives it. -/
theorem edited_eq_scan (hsep : table.Separate) (hline : table.Delimited line) :
    table.edited line = table.scan line := by
  obtain ⟨pieces, hcut⟩ := exists_cut hsep.key_ne_nil line
  rw [hcut.edited_eq_render hsep hline (List.append_nil table).symm]
  exact hcut.render_eq_scan hsep.key_ne_nil

/-- The shipped table turns a delimited line into what one pass over the line as it was makes of
it: where a key stands the first entry with such a key gives its text, and everything else is
copied. Without a key nothing is found. -/
theorem apply_v3_of_delimited (hline : v3.Delimited line) :
    v3.apply line = if v3.hasKeyIn line then some (v3.scan line) else none := by
  split
  · next hkey => exact apply_eq_some_iff.2 ⟨hkey, edited_eq_scan separate_v3 hline⟩
  · next hkey => exact apply_eq_none_iff.2 (by simpa using hkey)

/-- A call form whose bare form is a key as well, around another key. -/
theorem apply_v3_of_delimited_lint :
    let line := "withStatusContext.lint(changedFiles)".toList
    let new := "gitUtils.withStatusContext(\"lint\", gitUtils.getFilesChanged)".toList
    v3.Delimited line ∧ v3.apply line = some new := by
  intro line new
  have hline : v3.Delimited line := by
    unfold v3
    repeat rw [Entry.of_ofList]
    decide +kernel
  refine ⟨hline, ?_⟩
  rw [apply_v3_of_delimited hline]
  unfold v3
  repeat rw [Entry.of_ofList]
  decide +kernel

end LineMigration.Table
