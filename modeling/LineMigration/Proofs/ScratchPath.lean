import LineMigration.Proofs.Path

/-!
# Scratch paths and how a path is written

The scratch path is found from the end of a path, the absolute form from its beginning, and each
leaves out blank pieces in places of its own. `CutsAt` says how the pieces of a path lie around its
file name, and `CutsAt.absolute_cases` what the absolute forms of the path and of its scratch path
are: the same names but for the last. So it does not matter how a path is written, or whether the
scratch path is taken before or after the absolute form (`sibling_absolute`).
-/

namespace LineMigration.Path

variable {path scratch start : Text} {directory between after list : List Text} {name : Name}
  {workingDirectory : Except Cause (List Name)}

/-! ## How a path begins -/

/-- Lists of pieces are joined by a slash. -/
theorem join_append (hlist : list ≠ []) (hafter : after ≠ []) :
    join (list ++ after) = join list ++ '/' :: join after := by
  induction list with
  | nil => exact absurd rfl hlist
  | cons piece others ih =>
    by_cases hothers : others = []
    · subst hothers
      exact join_cons_of_ne_nil hafter
    · rw [List.cons_append, join_cons_of_ne_nil (by simp [hothers]), join_cons_of_ne_nil hothers,
        ih hothers]
      simp

/-- What begins with a proper name begins with a character that is no slash. -/
theorem exists_join_eq_cons (hname : IsProper name) (list : List Text) :
    ∃ c rest, c ≠ '/' ∧ join (name :: list) = c :: rest := by
  cases name with
  | nil => exact absurd rfl hname.ne_nil
  | cons c name =>
    have hc : c ≠ '/' := fun heq ↦ hname.1 (heq ▸ List.mem_cons_self)
    by_cases hlist : list = []
    · exact ⟨c, name, hc, by rw [hlist]; rfl⟩
    · exact ⟨c, _, hc, join_cons_of_ne_nil hlist⟩

/-- A path that begins with a proper name is relative. -/
theorem isAbsolute_join_cons (hname : IsProper name) (list : List Text) :
    isAbsolute (join (name :: list)) = false := by
  obtain ⟨c, rest, hc, hjoin⟩ := exists_join_eq_cons hname list
  simp [hjoin, isAbsolute, hc]

/-- Whether two slashes come first is seen before any other character. -/
theorem startsDoubled_append (h : ∃ c ∈ start, c ≠ '/') (rest : Text) :
    startsDoubled (start ++ rest) = startsDoubled start := by
  obtain ⟨c, hmem, hc⟩ := h
  match start with
  | [first] =>
    rw [List.mem_singleton.1 hmem] at hc
    simp [startsDoubled, hc]
  | [first, second] =>
    by_cases hfirst : first = '/'
    · have hsecond : second ≠ '/' := by
        rintro rfl
        simp [hfirst, hc] at hmem
      simp [startsDoubled, hsecond]
    · simp [startsDoubled, hfirst]
  | first :: second :: third :: more =>
    by_cases hfirst : first = '/'
    · by_cases hsecond : second = '/'
      · by_cases hthird : third = '/' <;> simp [startsDoubled, hfirst, hsecond, hthird]
      · simp [startsDoubled, hsecond]
    · simp [startsDoubled, hfirst]

/-! ## How a path is cut at its file name -/

/-- The pieces of a path are those of its directory, blank ones, the file name, and blank ones. The
directory ends in a piece that is not blank, unless it is the first piece alone. -/
structure CutsAt (path : Text) (directory : List Text) (name : Name)
    (between after : List Text) : Prop where
  whole : pieces path = directory ++ between ++ name :: after
  blankBetween : ∀ piece ∈ between, isBlank piece = true
  blankAfter : ∀ piece ∈ after, isBlank piece = true
  plain : isBlank name = false
  ne_above : name ≠ above
  bare : directory = [] → between = []
  ends : ∀ piece ∈ directory.tail.getLast?, isBlank piece = false

/-- A path with a file name is cut at it. -/
theorem exists_cutsAt (h : splitFile path = some (directory, name)) :
    ∃ between after, CutsAt path directory name between after := by
  unfold splitFile at h
  cases hpieces : pieces path with
  | nil => exact absurd hpieces (pieces_ne_nil path)
  | cons first rest =>
    simp only [hpieces] at h
    have hrest := trimEnd_append_trailing isBlank rest
    split at h
    · next found hfound =>
      split at h
      · cases h
      next hne =>
      cases h
      obtain ⟨others, hothers⟩ := List.getLast?_eq_some_iff.1 hfound
      have hplain : isBlank name = false := getLast?_trimEnd rest name hfound
      rw [hothers, ← trimEnd_append_trailing isBlank others] at hrest
      rw [hothers, List.dropLast_concat]
      refine ⟨trailing isBlank others, trailing isBlank rest, ?_, forall_mem_trailing others,
        forall_mem_trailing rest, hplain, hne, by simp, getLast?_trimEnd others⟩
      rw [hpieces]
      conv => lhs; rw [← hrest]
      simp
    · next hnone =>
      split at h
      · cases h
      next hfirst =>
      cases h
      rw [List.getLast?_eq_none_iff.1 hnone, List.nil_append] at hrest
      simp only [Bool.or_eq_true, decide_eq_true_eq, not_or, Bool.not_eq_true] at hfirst
      refine ⟨[], rest, hpieces, by simp, ?_, hfirst.1, hfirst.2, by simp, by simp⟩
      rw [← hrest]
      exact forall_mem_trailing rest

namespace CutsAt

variable (h : CutsAt path directory name between after)
include h

theorem slash_not_mem_of_mem_directory : ∀ piece ∈ directory, '/' ∉ piece := by
  intro piece hmem
  have hpieces : piece ∈ pieces path := by simp [h.whole, hmem]
  exact slash_not_mem_of_mem_pieces hpieces

theorem isProper : IsProper name := by
  have hpieces : name ∈ pieces path := by simp [h.whole]
  exact ⟨slash_not_mem_of_mem_pieces hpieces, h.plain⟩

/-- The names of a path are those of its directory and the file name. -/
theorem properNames_eq : properNames path = directory.filter (!isBlank ·) ++ [name] := by
  have hbetween : between.filter (!isBlank ·) = [] := by
    simpa using h.blankBetween
  have hafter : after.filter (!isBlank ·) = [] := by
    simpa using h.blankAfter
  simp [properNames, h.whole, hbetween, hafter, h.plain]

/-- So there is something to read in it. -/
theorem ne_nil : path ≠ [] := by
  rintro rfl
  have hnames := h.properNames_eq
  simp [properNames, pieces, isBlank] at hnames

/-- A path whose file name is its first piece is relative. -/
theorem isAbsolute_eq_false (hdirectory : directory = []) : isAbsolute path = false := by
  have hwhole := h.whole
  rw [hdirectory, h.bare hdirectory] at hwhole
  rw [← join_pieces path, hwhole]
  exact isAbsolute_join_cons h.isProper after

/-- Otherwise it goes on with a slash behind its directory. -/
theorem exists_eq_join_append (hdirectory : directory ≠ []) :
    ∃ rest, path = join directory ++ '/' :: rest := by
  refine ⟨join (between ++ name :: after), ?_⟩
  rw [← join_append hdirectory (by simp), ← List.append_assoc, ← h.whole, join_pieces]

/-! ### The scratch path of a cut -/

/-- The pieces of the scratch path. -/
theorem pieces_scratch : pieces (join (directory ++ [name ++ scratchEnding])) =
    directory ++ [name ++ scratchEnding] := by
  refine pieces_join (by simp) fun piece hmem ↦ ?_
  rcases List.mem_append.1 hmem with hdirectory | hlast
  · exact h.slash_not_mem_of_mem_directory piece hdirectory
  · rw [List.mem_singleton.1 hlast]
    simp [scratchEnding, h.isProper.1]

theorem isProper_scratch : IsProper (name ++ scratchEnding) :=
  @isProper_of_mem_scratch [] name (by simpa using h.isProper) _ (by simp)

theorem properNames_scratch : properNames (join (directory ++ [name ++ scratchEnding])) =
    directory.filter (!isBlank ·) ++ [name ++ scratchEnding] := by
  simp [properNames, h.pieces_scratch, h.isProper_scratch.2]

/-- The scratch path begins as the path does. -/
theorem isAbsolute_scratch :
    isAbsolute (join (directory ++ [name ++ scratchEnding])) = isAbsolute path := by
  by_cases hdirectory : directory = []
  · rw [h.isAbsolute_eq_false hdirectory, hdirectory]
    exact isAbsolute_join_cons h.isProper_scratch []
  · obtain ⟨rest, hrest⟩ := h.exists_eq_join_append hdirectory
    rw [hrest, join_append hdirectory (by simp)]
    cases join directory <;> rfl

/-- It is not empty, and ends in its last name without a slash. -/
theorem endsInSlash_scratch :
    join (directory ++ [name ++ scratchEnding]) ≠ [] ∧
      endsInSlash (join (directory ++ [name ++ scratchEnding])) = false := by
  obtain ⟨front, hfront⟩ := join_concat directory (name ++ scratchEnding)
  have hname := h.isProper_scratch
  rw [hfront]
  exact ⟨by simp [hname.ne_nil], endsInSlash_append front hname.ne_nil hname.1⟩

/-- Two slashes at its start are kept if there are names of directories behind them. -/
theorem startsDoubled_scratch (habsolute : isAbsolute path = true) :
    startsDoubled (join (directory ++ [name ++ scratchEnding])) =
      (startsDoubled path && !(directory.filter (!isBlank ·)).isEmpty) := by
  have hdirectory : directory ≠ [] := fun hnil ↦ by
    simp [h.isAbsolute_eq_false hnil] at habsolute
  have hfree := h.slash_not_mem_of_mem_directory
  obtain ⟨rest, hrest⟩ := h.exists_eq_join_append hdirectory
  rw [join_append hdirectory (by simp)]
  obtain ⟨first, others, rfl⟩ := List.exists_cons_of_ne_nil hdirectory
  rcases List.eq_nil_or_concat others with rfl | ⟨inner, last, rfl⟩
  · -- Before the one slash of the directory nothing can stand in an absolute path.
    have hfirst : first = [] := by
      cases first with
      | nil => rfl
      | cons c more =>
        have hc : c = '/' := by simpa [hrest, join, isAbsolute] using habsolute
        exact absurd (hc ▸ List.mem_cons_self) (hfree _ List.mem_cons_self)
    obtain ⟨c, more, hc, hname⟩ := exists_join_eq_cons h.isProper_scratch []
    rw [hname, hfirst]
    simp [isBlank, join, startsDoubled, hc]
  · rw [List.concat_eq_append] at *
    have hlast : IsProper last := ⟨hfree last (by simp), h.ends last (by simp)⟩
    have hchar : ∃ c ∈ join (first :: (inner ++ [last])), c ≠ '/' := by
      obtain ⟨c, hmem⟩ := List.exists_mem_of_ne_nil last hlast.ne_nil
      obtain ⟨front, hfront⟩ := join_concat (first :: inner) last
      refine ⟨c, ?_, fun heq ↦ hlast.1 (heq ▸ hmem)⟩
      rw [← List.cons_append, hfront]
      exact List.mem_append_right _ hmem
    rw [startsDoubled_append hchar, hrest, startsDoubled_append hchar]
    simp [hlast.2]

end CutsAt

/-! ## Absolute forms -/

/-- The absolute form of an absolute path. -/
theorem absolute_of_isAbsolute (h : isAbsolute path = true) :
    absolute workingDirectory path =
      .ok (Absolute.text ⟨startsDoubled path, properNames path, endsInSlash path⟩) := by
  have hne : path ≠ [] := by
    rintro rfl
    simp [isAbsolute] at h
  simp [absolute, hne, h]

/-- The absolute form of a relative path. -/
theorem absolute_of_relative (hne : path ≠ []) (h : isAbsolute path = false) :
    absolute workingDirectory path = workingDirectory.map fun names ↦
      Absolute.text ⟨false, names ++ properNames path, endsInSlash path⟩ := by
  simp [absolute, hne, h]

/-- The names of an absolute path are read back from its written form. -/
theorem properNames_text {written : Absolute} (hnames : ∀ name ∈ written.names, IsProper name) :
    properNames written.text = written.names := by
  rw [properNames_eq_filter]
  by_cases hnil : written.names = []
  · rw [Route.ofPath_text_nil hnil, hnil]
    rfl
  · rw [Route.ofPath_text hnames hnil, List.filter_eq_self]
    exact fun name hmem ↦ by simpa using (hnames name hmem).ne_here

/-- The written form of an absolute path is its own absolute form, wherever one works. -/
theorem absolute_text {written : Absolute} (hnames : ∀ name ∈ written.names, IsProper name) :
    absolute workingDirectory written.text = .ok written.text := by
  rw [absolute_of_isAbsolute (isAbsolute_text written)]
  cases hlist : written.names with
  | nil =>
    obtain ⟨doubled, names, slash⟩ := written
    obtain rfl : names = [] := hlist
    cases doubled <;> cases slash <;> rfl
  | cons first others =>
    have hslash : endsInSlash written.text = written.slash :=
      congrArg Route.slash (Route.ofPath_text hnames (by simp [hlist]))
    have hdoubled : startsDoubled written.text = written.doubled := by
      obtain ⟨c, rest, hc, hjoin⟩ := exists_join_eq_cons (hnames first (by simp [hlist])) others
      simp only [Absolute.text, hlist, hjoin]
      cases written.doubled <;> simp [startsDoubled, hc]
    rw [hslash, hdoubled, properNames_text hnames]

/-- Every name of the working directory, if that is known, is proper. -/
def IsProperDirectory (workingDirectory : Except Cause (List Name)) : Prop :=
  ∀ names, workingDirectory = .ok names → ∀ name ∈ names, IsProper name

variable {file : Text}

/-- An absolute form is the written form of an absolute path with proper names. -/
theorem exists_text_of_absolute (hworking : IsProperDirectory workingDirectory)
    (h : absolute workingDirectory path = .ok file) :
    ∃ written : Absolute, file = written.text ∧ ∀ name ∈ written.names, IsProper name := by
  have hne : path ≠ [] := by
    rintro rfl
    cases h
  cases habsolute : isAbsolute path with
  | true =>
    rw [absolute_of_isAbsolute habsolute] at h
    cases h
    exact ⟨_, rfl, fun _ ↦ isProper_of_mem_properNames⟩
  | false =>
    rw [absolute_of_relative hne habsolute] at h
    cases hnames : workingDirectory with
    | error cause =>
      rw [hnames] at h
      cases h
    | ok names =>
      rw [hnames] at h
      cases h
      refine ⟨_, rfl, fun name hmem ↦ ?_⟩
      rcases List.mem_append.1 hmem with hupper | hproper
      · exact hworking names hnames name hupper
      · exact isProper_of_mem_properNames hproper

/-- The absolute forms of a path with a file name and of its scratch path: neither exists, for the
same cause, or they have the same names but for the last. -/
theorem CutsAt.absolute_cases (h : CutsAt path directory name between after)
    (hworking : IsProperDirectory workingDirectory) :
    let scratch := join (directory ++ [name ++ scratchEnding])
    (∃ cause, absolute workingDirectory path = .error cause ∧
      absolute workingDirectory scratch = .error cause) ∨
    ∃ doubled before slash, (∀ other ∈ before ++ [name], IsProper other) ∧
      absolute workingDirectory path = .ok (Absolute.text ⟨doubled, before ++ [name], slash⟩) ∧
      absolute workingDirectory scratch = .ok (Absolute.text
        ⟨doubled && !before.isEmpty, before ++ [name ++ scratchEnding], false⟩) := by
  intro scratch
  have hproper : ∀ other ∈ directory.filter (!isBlank ·) ++ [name], IsProper other :=
    fun other hmem ↦ isProper_of_mem_properNames (h.properNames_eq ▸ hmem)
  obtain ⟨hne, hslash⟩ := h.endsInSlash_scratch
  cases habsolute : isAbsolute path with
  | true =>
    refine .inr ⟨startsDoubled path, directory.filter (!isBlank ·), endsInSlash path, hproper,
      ?_, ?_⟩
    · rw [absolute_of_isAbsolute habsolute, h.properNames_eq]
    · rw [absolute_of_isAbsolute (h.isAbsolute_scratch.trans habsolute), h.properNames_scratch,
        h.startsDoubled_scratch habsolute, hslash]
  | false =>
    rw [absolute_of_relative h.ne_nil habsolute,
      absolute_of_relative hne (h.isAbsolute_scratch.trans habsolute), h.properNames_eq,
      h.properNames_scratch, hslash]
    cases hnames : workingDirectory with
    | error cause => exact .inl ⟨cause, rfl, rfl⟩
    | ok names =>
      refine .inr ⟨false, names ++ directory.filter (!isBlank ·), endsInSlash path, ?_, ?_, ?_⟩
      · intro other hmem
        rw [List.append_assoc] at hmem
        rcases List.mem_append.1 hmem with hupper | hlower
        · exact hworking names hnames other hupper
        · exact hproper other hlower
      · rw [List.append_assoc]
        rfl
      · rw [List.append_assoc]
        rfl

/-- The file name of a path, if it has one. -/
def fileName? (path : Text) : Option Name := (splitFile path).map (·.2)

/-- A path with a scratch path is cut at its file name. -/
theorem exists_cutsAt_of_fileName? (h : fileName? path = some name) :
    ∃ directory between after, CutsAt path directory name between after ∧
      sibling path = some (join (directory ++ [name ++ scratchEnding])) := by
  simp only [fileName?, Option.map_eq_some_iff, Prod.exists] at h
  obtain ⟨directory, found, hsplit, rfl⟩ := h
  obtain ⟨between, after, hcut⟩ := exists_cutsAt hsplit
  exact ⟨directory, between, after, hcut, by simp [sibling, hsplit]⟩

/-- The names of an absolute form and of its scratch path. -/
theorem exists_properNames (hworking : IsProperDirectory workingDirectory)
    (hname : fileName? path = some name) (hfile : absolute workingDirectory path = .ok file)
    (hscratch : sibling file = some scratch) :
    ∃ before, properNames file = before ++ [name] ∧
      properNames scratch = before ++ [name ++ scratchEnding] := by
  obtain ⟨directory, between, after, hcut, -⟩ := exists_cutsAt_of_fileName? hname
  rcases hcut.absolute_cases hworking with ⟨cause, herror, -⟩ |
    ⟨doubled, before, slash, hproper, hok, -⟩
  · rw [hfile] at herror
    cases herror
  · obtain rfl := Except.ok.inj (hfile.symm.trans hok)
    rw [sibling_text hproper rfl hcut.ne_above] at hscratch
    cases hscratch
    exact ⟨before, properNames_text hproper, properNames_text (isProper_of_mem_scratch hproper)⟩

/-- In every working directory, the scratch path of the absolute form of a path is the absolute form
of its scratch path, however the path is written, and absolute forms are their own absolute forms.
The scratch paths of two files have the same names exactly if the files lie in a directory of the
same names and their file names are equal. -/
theorem sibling_absolute (hworking : IsProperDirectory workingDirectory) :
    (∀ path scratch, sibling path = some scratch →
      (absolute workingDirectory path).map sibling =
        (absolute workingDirectory scratch).map some) ∧
    (∀ path file, absolute workingDirectory path = .ok file →
      absolute workingDirectory file = .ok file) ∧
    ∀ path other name otherName file otherFile scratch otherScratch,
      fileName? path = some name → fileName? other = some otherName →
      absolute workingDirectory path = .ok file → absolute workingDirectory other = .ok otherFile →
      sibling file = some scratch → sibling otherFile = some otherScratch →
      (properNames scratch = properNames otherScratch ↔
        (properNames file).dropLast = (properNames otherFile).dropLast ∧ name = otherName) := by
  refine ⟨fun path scratch hscratch ↦ ?_, fun path file hfile ↦ ?_, ?_⟩
  · obtain ⟨name, hname⟩ : ∃ name, fileName? path = some name := by
      simp only [sibling, Option.map_eq_some_iff] at hscratch
      obtain ⟨found, hsplit, -⟩ := hscratch
      exact ⟨found.2, by simp [fileName?, hsplit]⟩
    obtain ⟨directory, between, after, hcut, hsibling⟩ := exists_cutsAt_of_fileName? hname
    obtain rfl := Option.some.inj (hscratch.symm.trans hsibling)
    rcases hcut.absolute_cases hworking with ⟨cause, hfile, hbeside⟩ |
      ⟨doubled, before, slash, hproper, hfile, hbeside⟩
    · rw [hfile, hbeside]
      rfl
    · rw [hfile, hbeside]
      simp only [Except.map]
      rw [sibling_text hproper rfl hcut.ne_above]
  · obtain ⟨written, rfl, hproper⟩ := exists_text_of_absolute hworking hfile
    exact absolute_text hproper
  · intro path other name otherName file otherFile scratch otherScratch hname hother hfile
      hotherFile hscratch hotherScratch
    obtain ⟨before, hnames, hbeside⟩ := exists_properNames hworking hname hfile hscratch
    obtain ⟨others, hothers, hotherBeside⟩ :=
      exists_properNames hworking hother hotherFile hotherScratch
    rw [hnames, hothers, hbeside, hotherBeside, List.dropLast_concat, List.dropLast_concat]
    constructor
    · intro heq
      obtain ⟨rfl, hlast⟩ := List.append_inj' heq rfl
      exact ⟨rfl, List.append_cancel_right (List.singleton_inj.1 hlast)⟩
    · rintro ⟨rfl, rfl⟩
      rfl

/-- A path with two slashes at its start and a dot on either side of its name has one of them left
in its scratch path, as has the scratch path of its absolute form. Two files of one directory,
written in two ways, have two scratch paths. -/
theorem sibling_absolute_two_slashes :
    let workingDirectory : Except Cause (List Name) := .ok [['w']]
    let path := ['/', '/', '.', '/', 'f', '/', '.']
    let scratch := ['/', 'f', '-', 'n', 'e', 'w']
    IsProperDirectory workingDirectory ∧ sibling path = some scratch ∧
      absolute workingDirectory path = .ok ['/', '/', 'f'] ∧
      (absolute workingDirectory path).map sibling = .ok (some scratch) ∧
      absolute workingDirectory ['/', '/', 'f'] = .ok ['/', '/', 'f'] ∧
      absolute workingDirectory ['f', '/', '/'] = .ok ['/', 'w', '/', 'f', '/'] ∧
      absolute workingDirectory ['/', 'w', '/', '.', '/', 'g'] = .ok ['/', 'w', '/', 'g'] ∧
      properNames ['/', 'w', '/', 'f', '-', 'n', 'e', 'w'] ≠
        properNames ['/', 'w', '/', 'g', '-', 'n', 'e', 'w'] := by
  intro workingDirectory path scratch
  have hworking : IsProperDirectory workingDirectory := by
    rintro names hnames name hmem
    obtain rfl := Except.ok.inj hnames
    obtain rfl := List.mem_singleton.1 hmem
    exact ⟨by decide, rfl⟩
  obtain ⟨hsibling, hself, hnames⟩ := sibling_absolute hworking
  refine ⟨hworking, rfl, rfl, hsibling path scratch rfl, hself path _ rfl, rfl, rfl, fun heq ↦ ?_⟩
  have hname := (hnames ['f', '/', '/'] ['/', 'w', '/', '.', '/', 'g'] ['f'] ['g'] _ _ _ _ rfl rfl
    rfl rfl rfl rfl).1 heq
  exact absurd hname.2 (by decide)

end LineMigration.Path
