import LineMigration.Proofs.Text.Trimming
import LineMigration.FileSystem.Resolve

/-!
# Paths as text and as routes

What is written from pieces is read back as those pieces (`Path.pieces_join`). So the written form
of an absolute path has its names as its route (`Route.ofPath_text`), and the path of the scratch
file beside it has the same names but for the last (`Path.sibling_text`).
-/

namespace LineMigration

namespace Path

variable {path piece : Text}

/-! ## Pieces -/

/-- A text without a slash is one piece. -/
theorem pieces_of_not_mem (h : '/' ∉ piece) : pieces piece = [piece] := by
  induction piece with
  | nil => rfl
  | cons c rest ih =>
    have hc : c ≠ '/' := fun heq ↦ h (heq ▸ List.mem_cons_self)
    simp [pieces, hc, ih fun hmem ↦ h (List.mem_cons_of_mem _ hmem)]

/-- A slash separates pieces. -/
theorem pieces_append_slash (first rest : Text) :
    pieces (first ++ '/' :: rest) = pieces first ++ pieces rest := by
  induction first with
  | nil => simp [pieces]
  | cons c first ih =>
    by_cases hc : c = '/'
    · simp [pieces, hc, ih]
    · simp only [List.cons_append, pieces, hc, if_false, ih]
      -- The character joins the first piece, of which there is always one.
      cases hfirst : pieces first with
      | nil => exact absurd hfirst (pieces_ne_nil first)
      | cons piece others => rfl

/-- Pieces are read back as they were joined. -/
theorem pieces_join {list : List Text} (hne : list ≠ []) (h : ∀ piece ∈ list, '/' ∉ piece) :
    pieces (join list) = list := by
  induction list with
  | nil => exact absurd rfl hne
  | cons piece others ih =>
    by_cases hothers : others = []
    · subst hothers
      exact pieces_of_not_mem (h piece List.mem_cons_self)
    · rw [join_cons_of_ne_nil hothers, pieces_append_slash,
        pieces_of_not_mem (h piece List.mem_cons_self),
        ih hothers fun other hmem ↦ h other (List.mem_cons_of_mem _ hmem)]
      rfl

/-- No piece has a slash in it. -/
theorem slash_not_mem_of_mem_pieces (h : piece ∈ pieces path) : '/' ∉ piece := by
  induction path generalizing piece with
  | nil =>
    rw [List.mem_singleton.1 h]
    exact List.not_mem_nil
  | cons c rest ih =>
    simp only [pieces] at h
    split at h
    · rcases List.mem_cons.1 h with rfl | hrest
      · exact List.not_mem_nil
      · exact ih hrest
    · next hc =>
      cases hpieces : pieces rest with
      | nil => exact absurd hpieces (pieces_ne_nil rest)
      | cons first others =>
        rw [hpieces] at h ih
        rcases List.mem_cons.1 h with rfl | hothers
        · intro hmem
          rcases List.mem_cons.1 hmem with heq | hfirst
          · exact hc heq.symm
          · exact ih List.mem_cons_self hfirst
        · exact ih (List.mem_cons_of_mem _ hothers)

/-- What is put behind the last piece is put behind the joined pieces. -/
theorem join_concat_append (list : List Text) (last more : Text) :
    join (list ++ [last ++ more]) = join (list ++ [last]) ++ more := by
  induction list with
  | nil => rfl
  | cons piece others ih =>
    rw [List.cons_append, List.cons_append, join_cons_of_ne_nil (by simp),
      join_cons_of_ne_nil (by simp), ih]
    simp

/-- What joined pieces end in is the last of them. -/
theorem join_concat (list : List Text) (last : Text) :
    ∃ front, join (list ++ [last]) = front ++ last :=
  ⟨join (list ++ [[]]), join_concat_append list [] last⟩

/-- A path that ends in something without a slash does not end in one. -/
theorem endsInSlash_append (front : Text) (hne : piece ≠ []) (h : '/' ∉ piece) :
    endsInSlash (front ++ piece) = false := by
  obtain ⟨others, last, rfl⟩ := (List.eq_nil_or_concat piece).resolve_left hne
  rw [List.concat_eq_append] at h ⊢
  have hlast : last ≠ '/' := by
    rintro rfl
    exact h (List.mem_append_right _ List.mem_cons_self)
  simp [endsInSlash, hlast]

/-! ## Names of absolute paths -/

/-- A name as an absolute path has it: a piece that is not blank. -/
def IsProper (name : Name) : Prop := '/' ∉ name ∧ isBlank name = false

theorem IsProper.ne_nil {name : Name} (h : IsProper name) : name ≠ [] := by
  rintro rfl
  simp [IsProper, isBlank] at h

theorem IsProper.ne_here {name : Name} (h : IsProper name) : name ≠ here := by
  rintro rfl
  simp [IsProper, isBlank, here] at h

theorem isProper_of_mem_properNames {name : Name} (h : name ∈ properNames path) :
    IsProper name := by
  obtain ⟨hmem, hblank⟩ := List.mem_filter.1 h
  exact ⟨slash_not_mem_of_mem_pieces hmem, by simpa using hblank⟩

/-- The proper names of a path are those it is walked by, without single dots. -/
theorem properNames_eq_filter (path : Text) :
    properNames path = (Route.ofPath path).names.filter (· ≠ here) := by
  simp only [properNames, Route.ofPath, List.filter_filter]
  congr 1
  funext piece
  cases piece <;> simp [isBlank, here]

/-- Every absolute path starts at the root. -/
theorem isAbsolute_text (written : Absolute) : isAbsolute written.text = true := by
  cases hdoubled : written.doubled <;> simp [Absolute.text, isAbsolute, hdoubled]

/-- The piece between the two slashes that a path starts with, if it does. -/
def doublePiece (written : Absolute) : List Text := if written.doubled then [[]] else []

/-- The pieces of an absolute path are its names and the empty ones at its ends. -/
theorem pieces_text {written : Absolute} (hnames : ∀ name ∈ written.names, IsProper name)
    (hne : written.names ≠ []) :
    pieces written.text =
      [] :: (doublePiece written ++ written.names ++ if written.slash then [[]] else []) := by
  have hjoin : pieces (join written.names) = written.names :=
    pieces_join hne fun name hmem ↦ (hnames name hmem).1
  have hempty : written.names.isEmpty = false := by simpa using hne
  have hslash : pieces (join written.names ++ if written.slash then ['/'] else []) =
      written.names ++ if written.slash then [[]] else [] := by
    cases written.slash with
    | false => simpa using hjoin
    | true => simpa [hjoin, pieces] using pieces_append_slash (join written.names) []
  simp only [Absolute.text, hempty, Bool.not_false, Bool.and_true, doublePiece]
  cases written.doubled with
  | false => simpa [pieces] using hslash
  | true => simpa [pieces] using hslash

end Path

open LineMigration.Path

/-- The route of an absolute path. -/
theorem Route.ofPath_text {written : Absolute} (hnames : ∀ name ∈ written.names, IsProper name)
    (hne : written.names ≠ []) : Route.ofPath written.text = ⟨written.names, written.slash⟩ := by
  have hfilter : written.names.filter (!·.isEmpty) = written.names := by
    rw [List.filter_eq_self]
    intro name hmem
    simpa using (hnames name hmem).ne_nil
  have hroute : (Route.ofPath written.text).names = written.names := by
    simp only [Route.ofPath, pieces_text hnames hne]
    cases written.doubled <;> cases written.slash <;> simp [doublePiece, hfilter]
  have hslash : (Route.ofPath written.text).slash = written.slash := by
    have hempty : written.names.isEmpty = false := by simpa using hne
    simp only [Route.ofPath, Absolute.text, hempty, Bool.not_false, Bool.and_true]
    cases hwritten : written.slash with
    | true => simp [endsInSlash]
    | false =>
      -- The written form ends in its last name, which has no slash in it.
      obtain ⟨before, last, hlast⟩ := (List.eq_nil_or_concat written.names).resolve_left hne
      rw [List.concat_eq_append] at hlast
      obtain ⟨front, hfront⟩ := join_concat before last
      have hproper : IsProper last := hnames last (by simp [hlast])
      simpa [hlast, hfront, ← List.append_assoc] using
        endsInSlash_append (_ ++ front) hproper.ne_nil hproper.1
  rw [← hroute, ← hslash]

/-- An absolute path without names leads no further than the root. -/
theorem Route.ofPath_text_nil {written : Absolute} (hnil : written.names = []) :
    (Route.ofPath written.text).names = [] := by
  simp only [Route.ofPath, Absolute.text, hnil]
  cases written.doubled <;> cases written.slash <;> rfl

namespace Path

/-- With the ending after a proper name, the name is still a proper one. -/
theorem isProper_of_mem_scratch {before : List Name} {name : Name}
    (hnames : ∀ other ∈ before ++ [name], IsProper other) :
    ∀ other ∈ before ++ [name ++ scratchEnding], IsProper other := by
  intro other hmem
  rcases List.mem_append.1 hmem with hbefore | hlast
  · exact hnames other (List.mem_append_left _ hbefore)
  · obtain ⟨hslash, -⟩ := hnames name (by simp)
    have hdot : name ++ scratchEnding ≠ ['.'] := fun heq ↦ by
      simpa [scratchEnding] using congrArg List.length heq
    have hempty : name ++ scratchEnding ≠ [] := by simp [scratchEnding]
    rw [List.mem_singleton.1 hlast]
    exact ⟨by simp [scratchEnding, hslash], by simp [isBlank, hdot, hempty]⟩

/-- Beside a file of an absolute path stands a scratch file: its path has the same names before
the last, and the ending after it. Two slashes at the start are kept only before other names. -/
theorem sibling_text {written : Absolute} {before : List Name} {name : Name}
    (hnames : ∀ name ∈ written.names, IsProper name) (hlast : written.names = before ++ [name])
    (hname : name ≠ above) :
    sibling written.text = some (Absolute.text
      ⟨written.doubled && !before.isEmpty, before ++ [name ++ scratchEnding], false⟩) := by
  have hproper : IsProper name := hnames name (by simp [hlast])
  have htail : ∀ piece ∈ if written.slash then [([] : Text)] else [], isBlank piece = true := by
    cases written.slash <;> simp [isBlank]
  have hpieces : pieces written.text = [] :: ((doublePiece written ++ before ++ [name]) ++
      if written.slash then [[]] else []) := by
    rw [pieces_text hnames (by simp [hlast]), hlast]
    simp
  have hsplit : splitFile written.text =
      some ([] :: trimEnd isBlank (doublePiece written ++ before), name) := by
    simp only [splitFile, hpieces, trimEnd_append_of_forall htail, trimEnd_concat hproper.2,
      List.getLast?_concat, hname, if_false, List.dropLast_concat]
  rw [sibling, hsplit]
  rcases List.eq_nil_or_concat before with rfl | ⟨others, last, rfl⟩
  · -- Nothing but the root is before the name, so the second slash is trimmed as a blank piece.
    have hroot : trimEnd isBlank (doublePiece written ++ []) = [] := by
      unfold doublePiece
      cases written.doubled <;> rfl
    rw [hroot]
    simp [Absolute.text, join]
  · rw [List.concat_eq_append] at hlast ⊢
    have hbefore : IsProper last := hnames last (by simp [hlast])
    rw [← List.append_assoc, trimEnd_concat hbefore.2]
    cases hdoubled : written.doubled <;>
      simp [Absolute.text, doublePiece, hdoubled, join_cons_of_ne_nil]

end Path

end LineMigration
