import LineMigration.Proofs.FileSystem.Changes

/-!
# What leads on in another tree

`Carries fs other wanted` says of single names that those which lead to a wanted node in one file
system lead there in the other. `Leads.carry` takes this to any names: whatever is walked through
is a directory, and the directories are wanted. So paths that resolve to a wanted node resolve to
it in both (`resolve_carry`), and where the directories are carried both ways, every path ends in
the same name of the same directory (`SameDirectories.nameOf?_eq`).
-/

namespace LineMigration.FileSystem

variable {fs other : FileSystem} {wanted : Inode → Prop} {directory inode final : Inode}
  {name : Name} {names : List Name} {links : Nat} {path : Text}

/-- A name that leads to a wanted node of `fs` stands for the same in `other`. -/
structure Carries (fs other : FileSystem) (wanted : Inode → Prop) : Prop where
  directory : ∀ inode, fs.isDirectoryNode inode = true → other.isDirectoryNode inode = true
  walked : ∀ inode, fs.isDirectoryNode inode = true → wanted inode
  link : ∀ inode target,
    fs.node? inode = some (.link target) ↔ other.node? inode = some (.link target)
  child : ∀ directory name inode links final, fs.child directory name = .ok inode →
    fs.Leads directory [name] links final → wanted final → other.child directory name = .ok inode

/-- Less may be wanted, as long as the directories are. -/
theorem Carries.narrow {less : Inode → Prop} (h : Carries fs other wanted)
    (hwalked : ∀ inode, fs.isDirectoryNode inode = true → less inode)
    (hless : ∀ inode, less inode → wanted inode) : Carries fs other less :=
  ⟨h.directory, hwalked, h.link, fun directory name inode links final hchild hleads hfinal ↦
    h.child directory name inode links final hchild hleads (hless final hfinal)⟩

theorem Carries.directories (h : Carries fs other wanted) :
    Carries fs other fun inode ↦ fs.isDirectoryNode inode = true :=
  h.narrow (fun _ hinode ↦ hinode) h.walked

/-- What is no directory there was none here. -/
theorem Carries.plain (h : Carries fs other wanted) (hplain : other.isDirectoryNode inode = false) :
    fs.isDirectoryNode inode = false := by
  rw [← Bool.not_eq_true] at hplain ⊢
  exact fun hdirectory ↦ hplain (h.directory inode hdirectory)

/-- What names that lead to a wanted node begin in is wanted. -/
theorem Carries.wanted_start (h : Carries fs other wanted)
    (hleads : fs.Leads inode names links final) (hfinal : wanted final) : wanted inode := by
  cases hleads with
  | here => exact hfinal
  | step hchild => exact h.walked _ (isDirectoryNode_of_child hchild)
  | follow hchild => exact h.walked _ (isDirectoryNode_of_child hchild)

/-- Names that lead to a wanted node lead to it in the other file system. -/
theorem Leads.carry (hleads : fs.Leads directory names links final)
    (h : Carries fs other wanted) (hfinal : wanted final) :
    other.Leads directory names links final := by
  induction hleads with
  | here => exact .here _
  | @step directory inode final name rest links hchild hplain hrest ih =>
    -- What is walked through is a directory, and the last node is wanted.
    have hinode : wanted inode := h.wanted_start hrest hfinal
    have hname : fs.Leads directory [name] 0 inode := .step hchild hplain (.here inode)
    refine .step (h.child _ _ _ _ _ hchild hname hinode) ?_ (ih hfinal)
    intro target htarget
    exact hplain target ((h.link inode target).2 htarget)
  | @follow directory inode middle final name rest target within after hchild htarget hwithin
      hslash hrest ihwithin ihrest =>
    have hmiddle : wanted middle := h.wanted_start hrest hfinal
    have hname : fs.Leads directory [name] (within + 0 + 1) middle :=
      .follow hchild htarget hwithin hslash (.here middle)
    exact .follow (h.child _ _ _ _ _ hchild hname hmiddle) ((h.link inode target).1 htarget)
      (ihwithin hmiddle) (fun htext ↦ h.directory middle (hslash htext)) (ihrest hfinal)

/-- What is carried on is carried, if what was wanted still is. -/
theorem Carries.trans {third : FileSystem} {wantedNext : Inode → Prop} (h : Carries fs other wanted)
    (hnext : Carries other third wantedNext) (hwanted : ∀ inode, wanted inode → wantedNext inode) :
    Carries fs third wanted := by
  refine ⟨fun inode hinode ↦ hnext.directory inode (h.directory inode hinode), h.walked,
    fun inode target ↦ (h.link inode target).trans (hnext.link inode target), ?_⟩
  intro directory name inode links final hchild hleads hfinal
  exact hnext.child directory name inode links final
    (h.child directory name inode links final hchild hleads hfinal) (hleads.carry h hfinal)
    (hwanted final hfinal)

/-- A path that resolves to a wanted node resolves to it in the other file system. -/
theorem resolve_carry (hfs : fs.WellFormed) (hother : other.WellFormed)
    (h : Carries fs other wanted) (hworking : other.workingDirectory = fs.workingDirectory)
    (hinode : wanted inode) (hresolve : fs.resolve path = .ok inode) :
    other.resolve path = .ok inode := by
  obtain ⟨hcheck, links, hle, hleads, hslash⟩ := (resolve_eq_ok_iff hfs).1 hresolve
  refine (resolve_eq_ok_iff hother).2 ⟨hcheck, links, hle, ?_, ?_⟩
  · rw [hworking]
    exact hleads.carry h hinode
  · intro htext
    exact h.directory inode (hslash htext)

/-! ## The name that a path ends in -/

/-- A path ends in a name of the directory that the names before it lead to. -/
theorem nameOf?_eq_some_iff (hfs : fs.WellFormed) :
    fs.nameOf? path = some (directory, name) ↔
      ∃ before links, (Route.ofPath path).names = before ++ [name] ∧ links ≤ maxLinks ∧
        fs.Leads (startOf fs.workingDirectory path) before links directory ∧
        fs.isDirectoryNode directory = true := by
  rcases List.eq_nil_or_concat (Route.ofPath path).names with hnil | ⟨before, last, hnames⟩
  -- Without names a path leads to where it starts and ends in no name.
  · have hplace : ∃ start, fs.placeOf .keep path = .ok (.top start) := by
      have hroute : Route.ofPath path = ⟨[], (Route.ofPath path).slash⟩ := by rw [← hnil]
      rw [placeOf, hroute]
      exact ⟨_, walk_nil⟩
    obtain ⟨start, hstart⟩ := hplace
    simp [nameOf?, hstart, hnil]
  · rw [List.concat_eq_append] at hnames
    have hplace : ∀ place, fs.placeOf .keep path = .ok place ↔ _ := fun _ ↦
      placeOf_keep_eq_ok_iff hfs hnames
    constructor
    · intro h
      unfold nameOf? at h
      split at h
      · next found foundName slash hfound =>
        cases h
        obtain ⟨links, middle, hle, hleads, hmiddle, heq⟩ := (hplace _).1 hfound
        cases heq
        exact ⟨before, links, hnames, hle, hleads, hmiddle⟩
      · cases h
    · rintro ⟨others, links, hothers, hle, hleads, hdirectory⟩
      obtain ⟨rfl, heq⟩ := List.append_inj' (hnames.symm.trans hothers) rfl
      cases heq
      unfold nameOf?
      rw [(hplace _).2 ⟨links, directory, hle, hleads, hdirectory, rfl⟩]

/-- The place that a path has where links at the end are kept. -/
theorem placeOf_keep_of_nameOf? (hfs : fs.WellFormed)
    (h : fs.nameOf? path = some (directory, name)) :
    fs.placeOf .keep path = .ok (.entry directory name (Route.ofPath path).slash) := by
  obtain ⟨before, links, hnames, hle, hleads, hdirectory⟩ := (nameOf?_eq_some_iff hfs).1 h
  exact (placeOf_keep_eq_ok_iff hfs hnames).2 ⟨links, directory, hle, hleads, hdirectory, rfl⟩

/-- Both file systems lead to the same directories, from the same working directory. -/
structure SameDirectories (fs other : FileSystem) : Prop where
  workingDirectory : other.workingDirectory = fs.workingDirectory
  there : Carries fs other fun inode ↦ fs.isDirectoryNode inode = true
  back : Carries other fs fun inode ↦ other.isDirectoryNode inode = true

namespace SameDirectories

theorem refl (fs : FileSystem) : SameDirectories fs fs :=
  have hcarries : Carries fs fs fun inode ↦ fs.isDirectoryNode inode = true :=
    ⟨fun _ hinode ↦ hinode, fun _ hinode ↦ hinode, fun _ _ ↦ Iff.rfl,
      fun _ _ _ _ _ hchild _ _ ↦ hchild⟩
  ⟨rfl, hcarries, hcarries⟩

theorem symm (h : SameDirectories fs other) : SameDirectories other fs :=
  ⟨h.workingDirectory.symm, h.back, h.there⟩

theorem trans {third : FileSystem} (h : SameDirectories fs other)
    (hnext : SameDirectories other third) : SameDirectories fs third :=
  ⟨hnext.workingDirectory.trans h.workingDirectory,
    h.there.trans hnext.there h.there.directory,
    hnext.back.trans h.back hnext.back.directory⟩

/-- A name that a path ends in is the one it ends in in the other file system. -/
theorem nameOf?_of_some (hfs : fs.WellFormed) (hother : other.WellFormed)
    (h : SameDirectories fs other) (hname : fs.nameOf? path = some (directory, name)) :
    other.nameOf? path = some (directory, name) := by
  obtain ⟨before, links, hnames, hle, hleads, hdirectory⟩ := (nameOf?_eq_some_iff hfs).1 hname
  refine (nameOf?_eq_some_iff hother).2 ⟨before, links, hnames, hle, ?_, ?_⟩
  · rw [h.workingDirectory]
    exact hleads.carry h.there hdirectory
  · exact h.there.directory directory hdirectory

/-- Every path ends in the same name of the same directory. -/
theorem nameOf?_eq (hfs : fs.WellFormed) (hother : other.WellFormed)
    (h : SameDirectories fs other) (path : Text) : other.nameOf? path = fs.nameOf? path := by
  cases hname : fs.nameOf? path with
  | some found => exact h.nameOf?_of_some hfs hother hname
  | none =>
    cases hothername : other.nameOf? path with
    | none => rfl
    | some found =>
      have hsome := h.symm.nameOf?_of_some hother hfs hothername
      rw [hname] at hsome
      cases hsome

end SameDirectories

/-! ## Trees of the same outline -/

theorem Same.carries (h : Same Node.outline fs other) : Carries fs other fun _ ↦ True :=
  ⟨fun _ hinode ↦ h.isDirectoryNode hinode, fun _ _ ↦ trivial,
    fun _ _ ↦ ⟨h.node?_link, h.symm.node?_link⟩, fun _ _ _ _ _ hchild _ _ ↦ h.child hchild⟩

theorem Same.sameDirectories (h : Same Node.outline fs other) : SameDirectories fs other :=
  ⟨h.workingDirectory, h.carries.directories, h.symm.carries.directories⟩

end LineMigration.FileSystem
