import LineMigration.Proofs.Path
import LineMigration.Proofs.FileSystem.Carry

/-!
# Where absolute forms lead

The absolute form of a path puts the names of the working directory before it and leaves out
single dots. Neither changes where names lead: the names of a directory lead to it from the root
(`leads_of_climb`), and a single dot leads nowhere else (`Leads.withoutDots`). So a path and its
absolute form lead to the same node (`IsAbsoluteForm.resolve_unique`), and a file has its name
where its absolute form ends, beside the one of its scratch file (`site_of_resolve`). Paths of the
file come to that name over the links that the scratch path comes by (`Site.exists_ways`).
-/

namespace LineMigration.FileSystem

open LineMigration.Path

variable {fs other : FileSystem} {directory inode source final start : Inode} {name : Name}
  {names below upper : List Name} {fuel links : Nat} {path file scratch asked : Text}

/-! ## Names that change nothing -/

/-- What an entry is called can stand in an absolute path. -/
theorem isProper_of_isEntryName (h : IsEntryName name) : IsProper name := by
  obtain ⟨hne, hslash, hdots, -⟩ := h
  have hhere : name ≠ ['.'] := (isDots_eq_false_iff.1 hdots).1
  exact ⟨hslash, by simp [isBlank, hne, hhere]⟩

/-- The names that are climbed over lead from the root to the directory, over no links. -/
theorem leads_of_climb (hfs : fs.WellFormed) (hdirectory : fs.isDirectoryNode directory = true)
    (h : fs.climb fuel directory below = .ok names) :
    ∃ upper, names = upper ++ below ∧ fs.Leads root upper 0 directory ∧
      ∀ name ∈ upper, IsProper name := by
  induction fuel generalizing directory below with
  | zero => cases h
  | succ fuel ih =>
    simp only [climb] at h
    split at h
    · next hroot =>
      cases h
      exact ⟨[], rfl, hroot ▸ .here _, fun _ hmem ↦ absurd hmem List.not_mem_nil⟩
    · split at h
      · cases h
      · next parent hparent =>
        split at h
        · cases h
        · next found child hfound =>
          -- The name that was found leads from the directory above to this one.
          have hchild : child = directory := by simpa using List.find?_some hfound
          subst hchild
          have hlookup : fs.lookup parent found = some child :=
            hfs.lookup_of_mem (List.mem_of_find?_eq_some hfound)
          obtain ⟨upper, hnames, hleads, hproper⟩ := ih (hfs.isDirectoryNode_parent hparent) h
          have hname : fs.Leads parent [found] 0 child :=
            .step (hfs.child_of_lookup hlookup) (not_link_of_isDirectoryNode hdirectory)
              (.here child)
          refine ⟨upper ++ [found], by simp [hnames], hleads.append hname, ?_⟩
          intro asked hmem
          rcases List.mem_append.1 hmem with hupper | hlast
          · exact hproper asked hupper
          · rw [List.mem_singleton.1 hlast]
            exact isProper_of_isEntryName (hfs.isEntryName hlookup)

/-- A single dot leads to the directory itself. -/
theorem eq_of_child_here (h : fs.child directory here = .ok inode) : inode = directory := by
  unfold child at h
  split at h
  · rw [if_pos rfl] at h
    cases h
    rfl
  · cases h

/-- Names lead where they lead without single dots. -/
theorem Leads.withoutDots (h : fs.Leads directory names links final) :
    fs.Leads directory (names.filter (· ≠ Path.here)) links final := by
  induction h with
  | here => exact .here _
  | @step directory inode final name rest links hchild hplain _ ih =>
    by_cases hname : name = Path.here
    · subst hname
      rw [eq_of_child_here hchild] at ih
      simpa using ih
    · simpa [hname] using Leads.step hchild hplain ih
  | @follow directory inode middle final name rest target within after hchild htarget hwithin
      hslash _ _ ih =>
    by_cases hname : name = Path.here
    · subst hname
      rw [eq_of_child_here hchild] at htarget
      exact absurd htarget (not_link_of_isDirectoryNode (isDirectoryNode_of_child hchild) target)
    · simpa [hname] using Leads.follow hchild htarget hwithin hslash ih

/-! ## Absolute forms -/

/-- `file` starts at the root, goes on with the names `upper` to where `path` starts, and then
along `path` without its single dots. -/
structure IsAbsoluteForm (fs : FileSystem) (path file : Text) (upper : List Name) : Prop where
  isAbsolute : isAbsolute file = true
  names : (Route.ofPath file).names = upper ++ (Route.ofPath path).names.filter (· ≠ here)
  leads : fs.Leads root upper 0 (startOf fs.workingDirectory path)

/-- The absolute form of a path is its written form, with proper names. -/
theorem absolute_eq_ok (hfs : fs.WellFormed) (h : fs.absolute path = .ok file) :
    ∃ upper doubled, file = Absolute.text ⟨doubled, upper ++ properNames path, endsInSlash path⟩ ∧
      (∀ name ∈ upper, IsProper name) ∧
      fs.Leads root upper 0 (startOf fs.workingDirectory path) := by
  unfold FileSystem.absolute Path.absolute at h
  split at h
  · cases h
  · split at h
    · next habsolute =>
      cases h
      refine ⟨[], startsDoubled path, rfl, fun _ hmem ↦ absurd hmem List.not_mem_nil, ?_⟩
      rw [startOf, if_pos habsolute]
      exact .here root
    · next hrelative =>
      cases hworking : fs.workingNames with
      | error cause =>
        rw [hworking] at h
        cases h
      | ok names =>
        rw [hworking] at h
        cases h
        obtain ⟨upper, hnames, hleads, hproper⟩ :=
          leads_of_climb hfs hfs.workingDirectory hworking
        rw [List.append_nil] at hnames
        subst hnames
        refine ⟨names, false, rfl, hproper, ?_⟩
        rw [startOf, if_neg hrelative]
        exact hleads

/-- The names of an absolute form are proper. -/
theorem isProper_of_mem_absolute (hupper : ∀ name ∈ upper, IsProper name) :
    ∀ name ∈ upper ++ properNames path, IsProper name := by
  intro asked hmem
  rcases List.mem_append.1 hmem with h | h
  · exact hupper asked h
  · exact isProper_of_mem_properNames h

theorem isAbsoluteForm_of_absolute (hfs : fs.WellFormed) (h : fs.absolute path = .ok file) :
    ∃ upper, IsAbsoluteForm fs path file upper := by
  obtain ⟨upper, doubled, rfl, hproper, hleads⟩ := absolute_eq_ok hfs h
  refine ⟨upper, isAbsolute_text _, ?_, hleads⟩
  rw [← properNames_eq_filter]
  by_cases hnil : upper ++ properNames path = []
  · rw [Route.ofPath_text_nil hnil, hnil]
  · rw [Route.ofPath_text (isProper_of_mem_absolute hproper) hnil]

/-- An absolute form is one of itself: it has no single dots to leave out. -/
theorem isAbsoluteForm_self (hfs : fs.WellFormed) (h : fs.absolute path = .ok file) :
    IsAbsoluteForm fs file file [] := by
  obtain ⟨upper, hform⟩ := isAbsoluteForm_of_absolute hfs h
  obtain ⟨found, doubled, rfl, hproper, -⟩ := absolute_eq_ok hfs h
  refine ⟨hform.isAbsolute, ?_, ?_⟩
  · by_cases hnil : found ++ properNames path = []
    · rw [Route.ofPath_text_nil hnil]
      rfl
    · have hall : ∀ name ∈ found ++ properNames path, IsProper name :=
        isProper_of_mem_absolute hproper
      rw [Route.ofPath_text hall hnil, List.nil_append, eq_comm, List.filter_eq_self]
      intro name hmem
      simpa using (hall name hmem).ne_here
  · rw [startOf, if_pos hform.isAbsolute]
    exact .here root

namespace IsAbsoluteForm

/-- A path has the same absolute form where the same directories are led to. -/
theorem carry (h : IsAbsoluteForm fs path file upper) (hfs : fs.WellFormed)
    (hsame : SameDirectories fs other) : IsAbsoluteForm other path file upper := by
  refine ⟨h.isAbsolute, h.names, ?_⟩
  rw [hsame.workingDirectory]
  exact h.leads.carry hsame.there (hfs.isDirectoryNode_startOf hfs.workingDirectory path)

/-- Where names lead from the start of a path, they lead from the root behind `upper`. -/
theorem leads_root (h : IsAbsoluteForm fs path file upper)
    (hleads : fs.Leads (startOf fs.workingDirectory path) names links final) :
    fs.Leads (startOf fs.workingDirectory file) (upper ++ names.filter (· ≠ here)) links final := by
  rw [startOf, if_pos h.isAbsolute]
  simpa using h.leads.append hleads.withoutDots

/-- A path and its absolute form resolve to the same node. -/
theorem resolve_unique (h : IsAbsoluteForm fs path file upper) (hfs : fs.WellFormed)
    (hpath : fs.resolve path = .ok inode) (hfile : fs.resolve file = .ok source) :
    inode = source := by
  obtain ⟨-, links, -, hleads, -⟩ := (resolve_eq_ok_iff hfs).1 hpath
  obtain ⟨-, others, -, hothers, -⟩ := (resolve_eq_ok_iff hfs).1 hfile
  rw [h.names] at hothers
  exact ((h.leads_root hleads).unique hothers).2

/-- If the absolute form leads to no directory, a path that ends in a name ends in the same name
of the same directory. -/
theorem nameOf?_eq (h : IsAbsoluteForm fs path file upper) (hfs : fs.WellFormed)
    (hfile : fs.resolve file = .ok source) (hplain : fs.isDirectoryNode source = false)
    (hname : fs.nameOf? path = some (directory, name)) :
    fs.nameOf? file = some (directory, name) := by
  obtain ⟨before, links, hnames, hle, hleads, hdirectory⟩ := (nameOf?_eq_some_iff hfs).1 hname
  have hroot := h.leads_root hleads
  have hfilenames := h.names
  rw [hnames, List.filter_append, ← List.append_assoc] at hfilenames
  by_cases hhere : name = here
  · -- A last single dot would make the absolute form one of a directory.
    obtain ⟨-, others, -, hothers, -⟩ := (resolve_eq_ok_iff hfs).1 hfile
    rw [hfilenames, hhere, show [here].filter (· ≠ here) = [] from rfl, List.append_nil] at hothers
    obtain ⟨-, rfl⟩ := hroot.unique hothers
    rw [hdirectory] at hplain
    cases hplain
  · refine (nameOf?_eq_some_iff hfs).2 ⟨_, links, ?_, hle, hroot, hdirectory⟩
    rw [hfilenames]
    simp [hhere]

end IsAbsoluteForm

/-- The absolute form of a path to a plain node leads there too, if the system looks at it. -/
theorem resolve_absolute (hfs : fs.WellFormed) (habsolute : fs.absolute path = .ok file)
    (hcheck : checkPath file = .ok ()) (hpath : fs.resolve path = .ok inode)
    (hplain : fs.isDirectoryNode inode = false) : fs.resolve file = .ok inode := by
  obtain ⟨upper, hform⟩ := isAbsoluteForm_of_absolute hfs habsolute
  obtain ⟨-, links, hle, hleads, hslash⟩ := (resolve_eq_ok_iff hfs).1 hpath
  have hfile := hform.leads_root hleads
  rw [← hform.names] at hfile
  refine (resolve_eq_ok_iff hfs).2 ⟨hcheck, links, hle, hfile, fun hends ↦ hslash ?_⟩
  -- It ends in a slash only if the path does, as it has names.
  obtain ⟨found, doubled, rfl, hproper, -⟩ := absolute_eq_ok hfs habsolute
  have hne : found ++ properNames path ≠ [] := by
    intro hnil
    rw [Route.ofPath_text_nil hnil] at hfile
    cases hfile
    rw [hfs.isDirectoryNode_startOf hfs.workingDirectory] at hplain
    cases hplain
  rwa [Route.ofPath_text (isProper_of_mem_absolute hproper) hne] at hends

/-! ## A file and its scratch file -/

/-- `file` ends in a name that leads to `source`, which is no directory, and `scratch` ends in
that name with the ending, in the same directory. -/
structure Site (fs : FileSystem) (file scratch : Text) (directory : Inode) (name : Name)
    (source : Inode) : Prop where
  fileName : fs.nameOf? file = some (directory, name)
  fileSlash : (Route.ofPath file).slash = false
  scratchName : fs.nameOf? scratch = some (directory, name ++ scratchEnding)
  scratchSlash : (Route.ofPath scratch).slash = false
  leads : ∃ links, fs.Leads directory [name] links source
  plain : fs.isDirectoryNode source = false

/-- The dots stand for directories. -/
theorem isDirectoryNode_of_child_dots (hfs : fs.WellFormed) (hname : isDots name = true)
    (hchild : fs.child directory name = .ok inode) : fs.isDirectoryNode inode = true := by
  simp only [isDots, Bool.or_eq_true, decide_eq_true_eq] at hname
  rcases hname with rfl | rfl
  · rw [eq_of_child_here hchild]
    exact isDirectoryNode_of_child hchild
  · rcases hfs.child_eq_ok_iff.1 hchild with ⟨-, habove, -⟩ | ⟨-, hparent⟩ | hlookup
    · cases habove
    · exact hfs.isDirectoryNode_parent hparent
    · have hbad := (hfs.isEntryName hlookup).2.2.1
      cases hbad

/-- A name of a directory of the system leads to no plain node. -/
theorem isDots_of_leads (hfs : fs.WellFormed) (hleads : fs.Leads directory [name] links final)
    (hplain : fs.isDirectoryNode final = false) : isDots name = false := by
  rw [← Bool.not_eq_true]
  intro hname
  cases hleads with
  | step hchild _ hrest =>
    cases hrest
    rw [isDirectoryNode_of_child_dots hfs hname hchild] at hplain
    cases hplain
  | follow hchild htarget =>
    exact absurd htarget
      (not_link_of_isDirectoryNode (isDirectoryNode_of_child_dots hfs hname hchild) _)

/-- The name that a path ends in if it resolves to a plain node, which that name leads to. -/
theorem nameOf?_of_resolve (hfs : fs.WellFormed) (hresolve : fs.resolve path = .ok inode)
    (hplain : fs.isDirectoryNode inode = false) :
    (Route.ofPath path).slash = false ∧ ∃ directory name, fs.nameOf? path = some (directory, name) ∧
      (∃ links, fs.Leads directory [name] links inode) := by
  obtain ⟨-, links, hle, hleads, hslash⟩ := (resolve_eq_ok_iff hfs).1 hresolve
  refine ⟨?_, ?_⟩
  · rw [← Bool.not_eq_true]
    intro htrue
    rw [hslash htrue] at hplain
    cases hplain
  · rcases List.eq_nil_or_concat (Route.ofPath path).names with hnil | ⟨before, name, hnames⟩
    · rw [hnil] at hleads
      cases hleads
      rw [hfs.isDirectoryNode_startOf hfs.workingDirectory path] at hplain
      cases hplain
    · rw [List.concat_eq_append] at hnames
      rw [hnames] at hleads
      obtain ⟨directory, first, second, hfirst, hsecond, rfl⟩ := hleads.split
      exact ⟨directory, name, (nameOf?_eq_some_iff hfs).2 ⟨before, first, hnames, by omega, hfirst,
        hsecond.isDirectoryNode⟩, second, hsecond⟩

/-- The scratch file of an absolute form has the names of the form, with the ending after the last
one. -/
theorem route_of_sibling (hfs : fs.WellFormed) (habsolute : fs.absolute path = .ok file)
    {before : List Name} (hnames : (Route.ofPath file).names = before ++ [name])
    (hname : name ≠ above) :
    ∃ scratch, sibling file = some scratch ∧ isAbsolute scratch = true ∧
      Route.ofPath scratch = ⟨before ++ [name ++ scratchEnding], false⟩ := by
  obtain ⟨upper, doubled, htext, hproper, -⟩ := absolute_eq_ok hfs habsolute
  have hall : ∀ name ∈ upper ++ properNames path, IsProper name :=
    isProper_of_mem_absolute hproper
  have hne : upper ++ properNames path ≠ [] := by
    intro hnil
    rw [htext, Route.ofPath_text_nil hnil] at hnames
    cases before <;> cases hnames
  have hroute : Route.ofPath file = ⟨upper ++ properNames path, endsInSlash path⟩ := by
    rw [htext, Route.ofPath_text hall hne]
  rw [hroute] at hnames
  have hlist : upper ++ properNames path = before ++ [name] := hnames
  have hending : ∀ other ∈ before ++ [name ++ scratchEnding], IsProper other :=
    isProper_of_mem_scratch (hlist ▸ hall)
  refine ⟨_, by rw [htext]; exact sibling_text hall hnames hname, isAbsolute_text _, ?_⟩
  exact Route.ofPath_text hending (by simp)

/-- The system looks at a path in which there is something, but no NUL, within the limit. -/
theorem checkPath_eq_ok_iff :
    checkPath path = .ok () ↔
      '\x00' ∉ path ∧ path ≠ [] ∧ (Text.utf8 path).length < pathLimit := by
  unfold checkPath
  split
  · next hnul => simp [hnul]
  split
  · next hnil => simp [hnil]
  split <;> simp_all

/-- If the system looks at the scratch path of the absolute form of a path to a plain node, it looks
at the absolute form, which is no longer. -/
theorem checkPath_of_sibling (hfs : fs.WellFormed) (habsolute : fs.absolute path = .ok file)
    (hscratch : sibling file = some scratch) (hpath : fs.resolve path = .ok inode)
    (hplain : fs.isDirectoryNode inode = false) (hcheck : checkPath scratch = .ok ()) :
    checkPath file = .ok () := by
  obtain ⟨hslash, directory, name, hname, links, hleads⟩ := nameOf?_of_resolve hfs hpath hplain
  obtain ⟨hhere, habove⟩ := isDots_eq_false_iff.1 (isDots_of_leads hfs hleads hplain)
  obtain ⟨before, -, hnames, -⟩ := (nameOf?_eq_some_iff hfs).1 hname
  obtain ⟨upper, doubled, rfl, hproper, -⟩ := absolute_eq_ok hfs habsolute
  have hall : ∀ other ∈ upper ++ properNames path, IsProper other :=
    isProper_of_mem_absolute hproper
  have hends : endsInSlash path = false := hslash
  obtain ⟨others, hlist⟩ : ∃ others, upper ++ properNames path = others ++ [name] :=
    ⟨upper ++ before.filter (· ≠ here), by rw [properNames_eq_filter, hnames]; simp [hhere]⟩
  rw [hlist] at hall
  rw [hlist, hends] at hscratch ⊢
  rw [sibling_text hall rfl habove] at hscratch
  cases hscratch
  rw [checkPath_eq_ok_iff] at hcheck ⊢
  obtain ⟨hnul, -, hlength⟩ := hcheck
  simp only [Absolute.text, join_concat_append, Text.utf8_append, List.length_append] at *
  refine ⟨?_, by cases doubled <;> simp, ?_⟩
  · cases doubled <;> simp_all
  · -- The scratch path may lack one of two slashes, and has the ending for it.
    have hone : (Text.utf8 ['/']).length = 1 := rfl
    have htwo : (Text.utf8 ['/', '/']).length = 2 := rfl
    have hending : (Text.utf8 scratchEnding).length = 4 := rfl
    cases doubled <;> cases others <;> simp_all <;> omega

/-- Where the absolute form of a path resolves to a plain node, it has a scratch file beside it. -/
theorem site_of_resolve (hfs : fs.WellFormed) (habsolute : fs.absolute path = .ok file)
    (hfile : fs.resolve file = .ok source) (hplain : fs.isDirectoryNode source = false) :
    ∃ scratch directory name, sibling file = some scratch ∧
      Site fs file scratch directory name source := by
  obtain ⟨hslash, directory, name, hname, links, hleads⟩ := nameOf?_of_resolve hfs hfile hplain
  obtain ⟨before, more, hnames, hle, hbefore, hdirectory⟩ := (nameOf?_eq_some_iff hfs).1 hname
  obtain ⟨upper, hform⟩ := isAbsoluteForm_of_absolute hfs habsolute
  have habove := (isDots_eq_false_iff.1 (isDots_of_leads hfs hleads hplain)).2
  obtain ⟨scratch, hscratch, hstart, hsibling⟩ := route_of_sibling hfs habsolute hnames habove
  refine ⟨scratch, directory, name, hscratch, hname, hslash, ?_, by rw [hsibling], ⟨links, hleads⟩,
    hplain⟩
  refine (nameOf?_eq_some_iff hfs).2 ⟨before, more, by rw [hsibling], hle, ?_, hdirectory⟩
  rw [startOf, if_pos hform.isAbsolute] at hbefore
  rwa [startOf, if_pos hstart]

/-- A file and its scratch file have the same names but for the last, and that of the scratch file
has the ending behind it. -/
theorem Site.routes (hfs : fs.WellFormed) (hsite : Site fs file scratch directory name source)
    (habsolute : fs.absolute path = .ok file) (hscratch : sibling file = some scratch) :
    ∃ before, Route.ofPath file = ⟨before ++ [name], false⟩ ∧
      Route.ofPath scratch = ⟨before ++ [name ++ scratchEnding], false⟩ := by
  obtain ⟨links, hleads⟩ := hsite.leads
  have habove := (isDots_eq_false_iff.1 (isDots_of_leads hfs hleads hsite.plain)).2
  obtain ⟨before, -, hnames, -⟩ := (nameOf?_eq_some_iff hfs).1 hsite.fileName
  obtain ⟨beside, hbeside, -, hroute⟩ := route_of_sibling hfs habsolute hnames habove
  cases hscratch.symm.trans hbeside
  exact ⟨before, by rw [← hnames, ← hsite.fileSlash], hroute⟩

/-- A path of the file comes to the name of the file, and the scratch path to the name beside it,
over as many links. -/
theorem Site.exists_ways (hfs : fs.WellFormed) (hsite : Site fs file scratch directory name source)
    (habsolute : fs.absolute path = .ok file) (hscratch : sibling file = some scratch)
    (hfile : fs.resolve file = .ok source) (hform : IsAbsoluteForm fs asked file upper)
    (hasked : fs.resolve asked = .ok source) :
    ∃ before behind links, (Route.ofPath asked).names = before ++ [name] ∧
      (Route.ofPath scratch).names = behind ++ [name ++ scratchEnding] ∧
      fs.Leads (startOf fs.workingDirectory asked) before links directory ∧
      fs.Leads (startOf fs.workingDirectory scratch) behind links directory := by
  obtain ⟨links, hleads⟩ := hsite.leads
  obtain ⟨hhere, habove⟩ := isDots_eq_false_iff.1 (isDots_of_leads hfs hleads hsite.plain)
  obtain ⟨-, found, foundName, hname, -⟩ := nameOf?_of_resolve hfs hasked hsite.plain
  have hfilename := hform.nameOf?_eq hfs hfile hsite.plain hname
  rw [hsite.fileName] at hfilename
  cases hfilename
  obtain ⟨before, more, hnames, -, hbefore, -⟩ := (nameOf?_eq_some_iff hfs).1 hname
  have hfilenames : (Route.ofPath file).names =
      (upper ++ before.filter (· ≠ here)) ++ [name] := by
    rw [hform.names, hnames, List.filter_append, ← List.append_assoc]
    simp [hhere]
  obtain ⟨beside, hbeside, hstart, hroute⟩ :=
    route_of_sibling hfs habsolute hfilenames habove
  cases hscratch.symm.trans hbeside
  have hbehind := hform.leads_root hbefore
  rw [startOf, if_pos hform.isAbsolute] at hbehind
  refine ⟨before, _, more, hnames, by rw [hroute], hbefore, ?_⟩
  rwa [startOf, if_pos hstart]

end LineMigration.FileSystem
