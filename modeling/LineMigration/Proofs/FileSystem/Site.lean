import LineMigration.Proofs.FileSystem.Rename

/-!
# A file, its path and its scratch file

What creating the scratch file does, and what writing to it does to the file beside it. What is
created is a plain node that the scratch path resolves to (`Created.plain`, `Created.resolve`), be
it over links that led nowhere before. If it is another node than the file, then the entry that the
path names and the bytes that it reads stay the same (`WritesTo.shownAt?_eq`, `WritesTo.read?_eq`);
and the scratch file can always be moved to the name of the file (`rename_scratch`).
-/

namespace LineMigration.FileSystem

open LineMigration.Path

variable {fs other created : FileSystem} {directory inode source target final : Inode}
  {name : Name} {names upper : List Name} {path file scratch : Text} {links : Nat} {bytes : Bytes}

/-! ## What names lead to -/

/-- Names do not lead to a link, as those are followed. -/
theorem Leads.not_link (hfs : fs.WellFormed) (h : fs.Leads directory names links final)
    (hstart : ∀ text, fs.node? directory ≠ some (.link text)) :
    ∀ text, fs.node? final ≠ some (.link text) := by
  induction h with
  | here => exact hstart
  | step _ hplain _ ih => exact ih hplain
  | @follow directory _ _ _ _ _ target _ _ hchild _ _ _ _ ihwithin ihrest =>
    have hstart := hfs.isDirectoryNode_startOf (isDirectoryNode_of_child hchild) target
    exact ihrest (ihwithin (not_link_of_isDirectoryNode hstart))

/-- What a path resolves to is no link. -/
theorem not_link_of_resolve (hfs : fs.WellFormed) (h : fs.resolve path = .ok inode) :
    ∀ text, fs.node? inode ≠ some (.link text) := by
  obtain ⟨-, links, -, hleads, -⟩ := (resolve_eq_ok_iff hfs).1 h
  have hstart := hfs.isDirectoryNode_startOf hfs.workingDirectory path
  exact hleads.not_link hfs (not_link_of_isDirectoryNode hstart)

/-- What a path resolves to is a node. -/
theorem lt_of_resolve (hfs : fs.WellFormed) (h : fs.resolve path = .ok inode) :
    inode < fs.nodes.length := by
  have hlt : ∀ {directory names links final}, fs.Leads directory names links final →
      directory < fs.nodes.length → final < fs.nodes.length := by
    intro directory names links final hleads hstart
    induction hleads with
    | here => exact hstart
    | step hchild _ _ ih => exact ih (hfs.lt_of_child hchild)
    | @follow directory _ _ _ _ _ target _ _ hchild _ _ _ _ ihwithin ihrest =>
      exact ihrest (ihwithin (lt_of_isDirectoryNode
        (hfs.isDirectoryNode_startOf (isDirectoryNode_of_child hchild) target)))
  obtain ⟨-, links, -, hleads, -⟩ := (resolve_eq_ok_iff hfs).1 h
  exact hlt hleads (lt_of_isDirectoryNode (hfs.isDirectoryNode_startOf hfs.workingDirectory path))

/-- A name that leads to a plain node stands for one, be it a link or that node. -/
theorem entry_of_leads (hfs : fs.WellFormed) (hleads : fs.Leads directory [name] links final)
    (hplain : fs.isDirectoryNode final = false) :
    ∃ entry, fs.lookup directory name = some entry ∧ fs.isDirectoryNode entry = false ∧
      (entry = final ∨ ∃ text, fs.node? entry = some (.link text)) := by
  obtain ⟨entry, hlookup⟩ := lookup_of_leads hfs hleads hplain
  have hchild := hfs.child_of_lookup hlookup
  refine ⟨entry, hlookup, ?_⟩
  cases hleads with
  | step hchild' _ hrest =>
    cases hrest
    cases hchild.symm.trans hchild'
    exact ⟨hplain, Or.inl rfl⟩
  | @follow _ _ _ _ _ _ text _ _ hchild' htarget =>
    cases hchild.symm.trans hchild'
    exact ⟨isDirectoryNode_eq_false htarget rfl, Or.inr ⟨text, htarget⟩⟩

/-! ## A path and its absolute form -/

namespace IsAbsoluteForm

variable (hfs : fs.WellFormed) (h : IsAbsoluteForm fs path file upper)
  (hfile : fs.resolve file = .ok source) (hplain : fs.isDirectoryNode source = false)
include hfs h hfile hplain

/-- A path that ends in a name resolves as its absolute form does. -/
theorem resolve_of_nameOf? (hcheck : checkPath path = .ok ())
    (hslash : (Route.ofPath path).slash = false)
    (hname : fs.nameOf? path = some (directory, name)) : fs.resolve path = .ok source := by
  obtain ⟨before, links, hnames, -, hbefore, -⟩ := (nameOf?_eq_some_iff hfs).1 hname
  obtain ⟨hfileSlash, _, _, hfound, more, hleads⟩ := nameOf?_of_resolve hfs hfile hplain
  rw [h.nameOf?_eq hfs hfile hplain hname] at hfound
  cases hfound
  obtain ⟨hhere, -⟩ := isDots_eq_false_iff.1 (isDots_of_leads hfs hleads hplain)
  have hfileNames : (Route.ofPath file).names =
      (upper ++ before.filter (· ≠ here)) ++ [name] := by
    rw [h.names, hnames]
    simp [hhere]
  -- Both come to the directory over as many links, so they may follow as many behind it.
  obtain ⟨-, others, hle, hothers⟩ :=
    (resolve_eq_ok_iff_of_leads hfs hfileNames (h.leads_root hbefore) hfileSlash).1 hfile
  exact (resolve_eq_ok_iff_of_leads hfs hnames hbefore hslash).2 ⟨hcheck, others, hle, hothers⟩

/-- Where the same directories are led to, a path that resolves now resolved before, if its
absolute form did. -/
theorem resolve_back (hother : other.WellFormed) (hsame : SameDirectories fs other)
    (hresolve : other.resolve path = .ok inode) : ∃ found, fs.resolve path = .ok found := by
  cases hdirectory : other.isDirectoryNode inode with
  | true => exact ⟨inode, resolve_carry hother hfs hsame.back hsame.workingDirectory.symm
      hdirectory hresolve⟩
  | false =>
    obtain ⟨hslash, _, _, hname, -⟩ := nameOf?_of_resolve hother hresolve hdirectory
    rw [hsame.nameOf?_eq hfs hother] at hname
    exact ⟨source, h.resolve_of_nameOf? hfs hfile hplain ((resolve_eq_ok_iff hother).1 hresolve).1
      hslash hname⟩

end IsAbsoluteForm

/-! ## What creating has to do with a path -/

namespace Created

/-- What is created is no link. -/
theorem not_link (hfs : fs.WellFormed) (h : Created fs path created target) :
    ∀ text, fs.node? target ≠ some (.link text) := by
  cases h with
  | emptied hresolve => exact not_link_of_resolve hfs hresolve
  | new => simp [node?_length]

/-- Where a path resolves to a node, that is the one that creating empties. -/
theorem target_of_resolve (hfs : fs.WellFormed) (h : Created fs path created target)
    (hresolve : fs.resolve path = .ok inode) :
    target = inode ∧ created = fs.modify target .truncated := by
  cases h with
  | emptied hresolve' =>
    rw [hresolve] at hresolve'
    cases hresolve'
    exact ⟨rfl, rfl⟩
  | @new directory name hplace hdirectory hname hnone =>
    have hchild : fs.child directory name = .ok inode := by
      obtain ⟨-, place, hfound, hnode⟩ := resolve_eq_ok_iff_placeOf.1 hresolve
      cases hplace.symm.trans hfound
      exact (nodeAt_entry_eq_ok_iff.1 hnode).1
    rw [hfs.lookup_of_child hname.2.2.1 hchild] at hnone
    cases hnone

/-- The last name of a path at which a file was created stands for a plain node. -/
theorem entry (hfs : fs.WellFormed) (h : Created fs path created target)
    (hname : fs.nameOf? path = some (directory, name)) :
    ∃ entry, created.lookup directory name = some entry ∧
      created.isDirectoryNode entry = false := by
  have hplain : ∀ {entry}, fs.lookup directory name = some entry →
      fs.isDirectoryNode entry = false →
      ∃ entry, created.lookup directory name = some entry ∧
        created.isDirectoryNode entry = false := by
    intro entry hlookup hentry
    exact ⟨entry, h.touchesOnly.lookup_of_some hlookup, (h.carries_back hfs).plain hentry⟩
  -- A link at the end has its own entry, wherever the file was created.
  cases hlink : fs.linkAt? directory name with
  | some text =>
    simp only [linkAt?] at hlink
    split at hlink
    · next found hfound =>
      obtain ⟨entry, hlookup, hnode⟩ := Option.bind_eq_some_iff.1 hfound
      exact hplain hlookup (isDirectoryNode_eq_false hnode rfl)
    · cases hlink
  | none =>
    cases h with
    | emptied hresolve hnot =>
      obtain ⟨-, found, last, hfound, links, hleads⟩ := nameOf?_of_resolve hfs hresolve hnot
      rw [hname] at hfound
      cases hfound
      obtain ⟨entry, hlookup, hentry, -⟩ := entry_of_leads hfs hleads hnot
      exact hplain hlookup hentry
    | new hplace hdirectory _ hnone =>
      rw [placeOf_of_nameOf? hfs hname hlink, Except.ok.injEq, Place.entry.injEq] at hplace
      obtain ⟨rfl, rfl, -⟩ := hplace
      refine ⟨fs.nodes.length, by rw [lookup_withFile hdirectory, if_pos ⟨rfl, rfl⟩], ?_⟩
      rw [isDirectoryNode_withFile, isDirectoryNode, node?_length]

/-- What is created is no directory. -/
theorem plain (h : Created fs path created target) : fs.isDirectoryNode target = false := by
  cases h with
  | emptied _ hplain => exact hplain
  | new => rw [isDirectoryNode, node?_length]

/-- What is created is a file without content, unless it was a device. -/
theorem node?_target (hfs : fs.WellFormed) (h : Created fs path created target)
    (hdevice : ∀ capacity taken, fs.node? target ≠ some (.device capacity taken)) :
    created.node? target = some (.file []) := by
  have hlink := h.not_link hfs
  cases h with
  | @emptied target hresolve hplain =>
    rw [node?_modify_same]
    cases hnode : fs.node? target with
    | none =>
      have hlt := List.getElem?_eq_none_iff.1 hnode
      exact absurd (lt_of_resolve hfs hresolve) (Nat.not_lt.2 hlt)
    | some node =>
      cases node with
      | file => rfl
      | directory =>
        rw [isDirectoryNode, hnode] at hplain
        cases hplain
      | link text => exact absurd hnode (hlink text)
      | device capacity taken => exact absurd hnode (hdevice capacity taken)
  | new => exact node?_withFile_same

/-- A walk to a name that stands for nothing leads to the new file that the name is given to. -/
theorem leads_of_walk_withFile {fuel : Nat} (hfs : fs.WellFormed)
    (hstart : fs.isDirectoryNode directory = true) {last : Inode} {lastName : Name}
    (hlast : fs.isDirectoryNode last = true) (hname : IsEntryName lastName)
    (hnone : fs.lookup last lastName = none)
    (hcarries : Carries fs (fs.withFile last lastName) fun _ ↦ True)
    (hwalk : fs.walk .follow fuel directory ⟨names, false⟩ = .ok (.entry last lastName false)) :
    ∃ links, links ≤ fuel ∧
      (fs.withFile last lastName).Leads directory names links fs.nodes.length := by
  -- A link at the end takes one from those that may follow, and the walk goes on along its text.
  induction fuel using Nat.strongRecOn generalizing directory names with
  | ind fuel ih =>
    rcases List.eq_nil_or_concat names with rfl | ⟨before, final, rfl⟩
    · rw [walk_nil] at hwalk
      cases hwalk
    rw [List.concat_eq_append] at hwalk ⊢
    obtain ⟨links, middle, hle, hleads, hmiddle⟩ :=
      FileSystem.leads_of_walk_append hfs hstart (List.cons_ne_nil _ _) hwalk
    have hbefore := hleads.carry hcarries trivial
    rw [walk_append hleads hmiddle hle (List.cons_ne_nil _ _)] at hwalk
    cases hlink : fs.linkAt? middle final with
    | none =>
      rw [walk_last fun _ ↦ hlink] at hwalk
      cases hwalk
      have hnew : (fs.withFile last lastName).lookup last lastName = some fs.nodes.length := by
        rw [lookup_withFile hlast, if_pos ⟨rfl, rfl⟩]
      exact ⟨links + 0, hle, hbefore.append
        (leads_of_lookup (hfs.withFile hname) hnew (by simp [node?_withFile_same]))⟩
    | some text =>
      obtain ⟨inode, hchild, htext⟩ := hfs.linkAt?_eq_some_iff.1 hlink
      rw [walk_last_link rfl hlink] at hwalk
      cases hfewer : fuel - links with
      | zero =>
        rw [hfewer] at hwalk
        cases hwalk
      | succ fewer =>
        rw [hfewer] at hwalk
        have hslash : (Route.ofPath text).slash = false := by
          simpa [Route.append] using slash_eq_false_of_walk hwalk
        have hroute : (Route.ofPath text).append [] false = ⟨(Route.ofPath text).names, false⟩ := by
          simp [Route.append, hslash]
        rw [hroute] at hwalk
        obtain ⟨more, hmore, hwithin⟩ :=
          ih fewer (by omega) (hfs.isDirectoryNode_startOf hmiddle text) hwalk
        refine ⟨links + (more + 0 + 1), by omega, hbefore.append (.follow
          ((child_withFile_eq_ok_iff hfs hlast hname hnone).2 (Or.inr hchild))
          ((hcarries.link inode text).1 htext) hwithin ?_ (.here _))⟩
        intro hends
        rw [hslash] at hends
        cases hends

/-- The path at which a file was created resolves to it. -/
theorem resolve (hfs : fs.WellFormed) (h : Created fs path created target)
    (hcheck : checkPath path = .ok ()) : created.resolve path = .ok target := by
  have hcreated := h.wellFormed hfs
  have hcarries := h.carries hfs
  have hworking := (h.sameDirectories hfs).workingDirectory
  cases h with
  | emptied hresolve => exact resolve_carry hfs hcreated hcarries hworking trivial hresolve
  | @new last lastName hplace hlast hname hnone =>
    have hslash : (Route.ofPath path).slash = false := slash_eq_false_of_walk hplace
    have hroute : Route.ofPath path = ⟨(Route.ofPath path).names, false⟩ := by rw [← hslash]
    rw [placeOf, hroute] at hplace
    obtain ⟨links, hle, hleads⟩ := leads_of_walk_withFile hfs
      (hfs.isDirectoryNode_startOf hfs.workingDirectory path) hlast hname hnone hcarries hplace
    refine (FileSystem.resolve_eq_ok_iff hcreated).2 ⟨hcheck, links, hle, by rwa [hworking], ?_⟩
    intro hends
    rw [hslash] at hends
    cases hends

end Created

/-! ## The file beside what was created -/

namespace WritesTo

variable (hfs : fs.WellFormed) (h : WritesTo target fs other)
  (hform : IsAbsoluteForm fs path file upper) (hfile : fs.resolve file = .ok source)
include hfs h hform hfile

/-- A path whose absolute form resolves still resolves to that node, or still to none. -/
theorem resolve_eq_ok_iff : other.resolve path = .ok inode ↔ fs.resolve path = .ok inode := by
  constructor
  · intro hother
    -- The path leads where its absolute form leads, also now.
    have hfile' : other.resolve file = .ok source :=
      resolve_carry hfs h.wellFormed h.carries h.sameDirectories.workingDirectory trivial hfile
    have heq : inode = source :=
      (hform.carry hfs h.sameDirectories).resolve_unique h.wellFormed hother hfile'
    have hlt : inode < fs.nodes.length := heq ▸ lt_of_resolve hfs hfile
    exact resolve_carry h.wellFormed hfs h.back h.sameDirectories.workingDirectory.symm hlt hother
  · intro hpath
    exact resolve_carry hfs h.wellFormed h.carries h.sameDirectories.workingDirectory trivial hpath

variable (hplain : fs.isDirectoryNode source = false) (hne : source ≠ target)
include hplain hne

/-- Writing to another node leaves the entry at a path as it is. -/
theorem shownAt?_eq (hlink : ∀ text, fs.node? target ≠ some (.link text)) :
    other.shownAt? path = fs.shownAt? path := by
  unfold shownAt?
  rw [h.sameDirectories.nameOf?_eq hfs h.wellFormed]
  cases hname : fs.nameOf? path with
  | none => rfl
  | some found =>
    obtain ⟨directory, name⟩ := found
    have hfilename := hform.nameOf?_eq hfs hfile hplain hname
    obtain ⟨-, _, _, hfound, links, hleads⟩ := nameOf?_of_resolve hfs hfile hplain
    rw [hfilename] at hfound
    cases hfound
    obtain ⟨entry, hlookup, -, hentry⟩ := entry_of_leads hfs hleads hplain
    refine h.touches.shown_eq ?_
    intro htarget
    rw [h.touches.lookup_of_some hlookup] at htarget
    cases htarget
    -- The entry is the file or a link, and the target is neither.
    rcases hentry with rfl | ⟨text, htext⟩
    · exact hne rfl
    · exact hlink text htext

/-- Writing to another node leaves what reading a path gives. -/
theorem read?_eq : other.read? path = fs.read? path := by
  have hresolve : ∀ inode, other.resolve path = .ok inode ↔ fs.resolve path = .ok inode :=
    fun _ ↦ resolve_eq_ok_iff hfs h hform hfile
  unfold read?
  cases hpath : fs.resolve path with
  | ok inode =>
    have heq : inode = source := hform.resolve_unique hfs hpath hfile
    rw [(hresolve inode).2 hpath, heq]
    simp only [h.touches.node?_eq hne hplain]
  | error cause =>
    cases hother : other.resolve path with
    | error => rfl
    | ok inode =>
      rw [(hresolve inode).1 hother] at hpath
      cases hpath

end WritesTo

/-! ## The move over the file -/

/-- A file without another name than that of the scratch file is what is moved, and it is not what
the name of the file stands for. -/
theorem SoleFile.moved {inode moved victim : Inode}
    (h : SoleFile fs directory (name ++ scratchEnding) inode bytes)
    (hmoved : fs.lookup directory (name ++ scratchEnding) = some moved)
    (hvictim : fs.lookup directory name = some victim) : moved = inode ∧ moved ≠ victim := by
  have hsame : moved = inode := Option.some.inj (hmoved.symm.trans h.lookup)
  refine ⟨hsame, ?_⟩
  rintro rfl
  have hbad := (h.only directory name (hsame ▸ hvictim)).2
  simp [scratchEnding] at hbad

/-- Once a file was created and written at the scratch path, the move onto the file beside it does
not fail. -/
theorem rename_scratch (hfs : fs.WellFormed) (hsite : Site fs file scratch directory name source)
    (hfile : checkPath file = .ok ()) (hscratch : checkPath scratch = .ok ())
    (hcreated : Created fs scratch created target) (bytes : Bytes) :
    ∃ moved victim,
      (created.append target bytes).lookup directory (name ++ scratchEnding) = some moved ∧
      (created.append target bytes).isDirectoryNode moved = false ∧
      (created.append target bytes).lookup directory name = some victim ∧
      (created.append target bytes).rename scratch file =
        .ok (if moved = victim then created.append target bytes else
          (created.append target bytes).relocate (directory, name ++ scratchEnding)
            (directory, name) moved) := by
  have hwrites := hcreated.writesTo hfs bytes
  have hsame := sameOutline_append created target bytes
  obtain ⟨moved, hmoved, hmovedPlain⟩ := hcreated.entry hfs hsite.scratchName
  obtain ⟨links, hleads⟩ := hsite.leads
  obtain ⟨victim, hvictim, hvictimPlain, -⟩ := entry_of_leads hfs hleads hsite.plain
  have hmovedPlain' : (created.append target bytes).isDirectoryNode moved = false :=
    hsame.symm.carries.plain hmovedPlain
  refine ⟨moved, victim, (hsame.lookup_eq _ _).trans hmoved, hmovedPlain',
    hwrites.touches.lookup_of_some hvictim, ?_⟩
  exact rename_files hwrites.wellFormed hscratch hfile
    ((hwrites.sameDirectories.nameOf?_eq hfs hwrites.wellFormed _).trans hsite.scratchName)
    hsite.scratchSlash
    ((hwrites.sameDirectories.nameOf?_eq hfs hwrites.wellFormed _).trans hsite.fileName)
    hsite.fileSlash ((hsame.lookup_eq _ _).trans hmoved) hmovedPlain'
    (hwrites.touches.lookup_of_some hvictim) (hwrites.back.plain hvictimPlain)

end LineMigration.FileSystem
