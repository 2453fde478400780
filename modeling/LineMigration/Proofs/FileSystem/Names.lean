import Mathlib.Data.List.Nodup
import LineMigration.Proofs.FileSystem.Create

/-!
# Names and the files they stand for

A path leads on by its last name from where the names before it lead
(`resolve_eq_ok_iff_of_leads`), so it resolves to what that name stands for, unless that is a link
(`resolve_of_nameOf?`). `SoleFile fs directory name inode bytes` says that a file has this name and
no other. A path that names nothing yet, or a file without another name, is the sole name of a
file once that is created (`Created.soleFile`); so what is written there shows under no other
name.
-/

namespace LineMigration.FileSystem

open LineMigration.Path

variable {fs created : FileSystem} {directory inode target final : Inode} {name : Name}
  {path : Text} {links : Nat} {bytes : Bytes}

/-! ## The last name of a path -/

/-- A name that leads to a plain node stands for something. -/
theorem lookup_of_leads (hfs : fs.WellFormed) (hleads : fs.Leads directory [name] links final)
    (hplain : fs.isDirectoryNode final = false) :
    ∃ inode, fs.lookup directory name = some inode := by
  have hdots := isDots_of_leads hfs hleads hplain
  cases hleads with
  | step hchild => exact ⟨_, hfs.lookup_of_child hdots hchild⟩
  | follow hchild => exact ⟨_, hfs.lookup_of_child hdots hchild⟩

/-- A name that stands for something other than a link leads to it. -/
theorem leads_of_lookup (hfs : fs.WellFormed) (hlookup : fs.lookup directory name = some inode)
    (hplain : ∀ text, fs.node? inode ≠ some (.link text)) :
    fs.Leads directory [name] 0 inode :=
  .step (hfs.child_of_lookup hlookup) hplain (.here inode)

/-- Where one name has what another has, the two lead to the same. -/
theorem leads_of_child_eq {other : Name}
    (hchild : fs.child directory name = fs.child directory other)
    (hleads : fs.Leads directory [name] links final) : fs.Leads directory [other] links final := by
  cases hleads with
  | step hfound hplain hrest => exact .step (hchild ▸ hfound) hplain hrest
  | follow hfound htext hwithin hslash hrest =>
    exact .follow (hchild ▸ hfound) htext hwithin hslash hrest

/-- A path leads on by its last name from where the names before it lead. -/
theorem resolve_eq_ok_iff_of_leads (hfs : fs.WellFormed) {before : List Name}
    (hnames : (Route.ofPath path).names = before ++ [name])
    (hbefore : fs.Leads (startOf fs.workingDirectory path) before links directory)
    (hslash : (Route.ofPath path).slash = false) :
    fs.resolve path = .ok final ↔ checkPath path = .ok () ∧
      ∃ more, links + more ≤ maxLinks ∧ fs.Leads directory [name] more final := by
  rw [resolve_eq_ok_iff hfs, hnames]
  refine and_congr_right fun _ ↦ ⟨?_, ?_⟩
  · rintro ⟨all, hle, hleads, -⟩
    obtain ⟨middle, first, more, hfirst, hmore, rfl⟩ := hleads.split
    obtain ⟨rfl, rfl⟩ := hbefore.unique hfirst
    exact ⟨more, hle, hmore⟩
  · rintro ⟨more, hle, hmore⟩
    refine ⟨links + more, hle, hbefore.append hmore, fun h ↦ ?_⟩
    rw [hslash] at h
    cases h

/-- A path resolves to what its last name stands for, if that is no link. -/
theorem resolve_of_nameOf? (hfs : fs.WellFormed) (hcheck : checkPath path = .ok ())
    (hname : fs.nameOf? path = some (directory, name))
    (hslash : (Route.ofPath path).slash = false)
    (hlookup : fs.lookup directory name = some inode)
    (hplain : ∀ text, fs.node? inode ≠ some (.link text)) : fs.resolve path = .ok inode := by
  obtain ⟨before, links, hnames, hle, hleads, -⟩ := (nameOf?_eq_some_iff hfs).1 hname
  exact (resolve_eq_ok_iff_of_leads hfs hnames hleads hslash).2
    ⟨hcheck, 0, hle, leads_of_lookup hfs hlookup hplain⟩

/-- A path whose last name is not that of a link has one place, whether links at the end are
followed or not. -/
theorem placeOf_of_nameOf? (hfs : fs.WellFormed) {last : LastLink}
    (hname : fs.nameOf? path = some (directory, name))
    (hlink : fs.linkAt? directory name = none) :
    fs.placeOf last path = .ok (.entry directory name (Route.ofPath path).slash) := by
  obtain ⟨before, links, hnames, hle, hleads, hdirectory⟩ := (nameOf?_eq_some_iff hfs).1 hname
  have hroute : Route.ofPath path = ⟨before ++ [name], (Route.ofPath path).slash⟩ := by
    rw [← hnames]
  rw [placeOf, hroute, walk_append hleads hdirectory hle (List.cons_ne_nil _ _)]
  exact walk_last fun _ ↦ hlink

/-! ## Counting names -/

/-- The entries of one node are some of the entries of all. -/
theorem countP_entries_le {nodes : List Node} {i : Nat} {node : Node}
    {p : Name × Inode → Bool} (h : nodes[i]? = some node) :
    node.entries.countP p ≤ (nodes.flatMap Node.entries).countP p := by
  obtain ⟨before, after, rfl⟩ := List.append_of_mem (List.mem_of_getElem? h)
  rw [List.flatMap_append, List.flatMap_cons, List.countP_append, List.countP_append]
  omega

/-- So are the entries of two nodes together. -/
theorem countP_entries_add_le {nodes : List Node} {i j : Nat} {node other : Node}
    {p : Name × Inode → Bool} (hnode : nodes[i]? = some node) (hother : nodes[j]? = some other)
    (hne : i ≠ j) :
    node.entries.countP p + other.entries.countP p ≤ (nodes.flatMap Node.entries).countP p := by
  induction nodes generalizing i j with
  | nil => cases hnode
  | cons first rest ih =>
    rw [List.flatMap_cons, List.countP_append]
    cases i with
    | zero =>
      obtain ⟨j, rfl⟩ : ∃ k, j = k + 1 := ⟨j - 1, by omega⟩
      rw [List.getElem?_cons_succ] at hother
      cases hnode
      exact Nat.add_le_add_left (countP_entries_le hother) _
    | succ i =>
      rw [List.getElem?_cons_succ] at hnode
      cases j with
      | zero =>
        cases hother
        rw [Nat.add_comm]
        exact Nat.add_le_add_left (countP_entries_le hnode) _
      | succ j =>
        rw [List.getElem?_cons_succ] at hother
        exact Nat.le_trans (ih hnode hother (by omega)) (Nat.le_add_left _ _)

/-- Where all nodes but one have none of the entries asked for, those are the entries of that
one. -/
theorem countP_entries_eq {nodes : List Node} {i : Nat} {node : Node} {p : Name × Inode → Bool}
    (hnode : nodes[i]? = some node)
    (hothers : ∀ j other, nodes[j]? = some other → j ≠ i → other.entries.countP p = 0) :
    (nodes.flatMap Node.entries).countP p = node.entries.countP p := by
  induction nodes generalizing i with
  | nil => cases hnode
  | cons first rest ih =>
    rw [List.flatMap_cons, List.countP_append]
    cases i with
    | zero =>
      cases hnode
      have hrest : (rest.flatMap Node.entries).countP p = 0 := by
        rw [List.countP_flatMap, List.sum_eq_zero_iff_forall_eq_nat]
        intro count hcount
        obtain ⟨other, hother, rfl⟩ := List.mem_map.1 hcount
        obtain ⟨j, hj⟩ := List.mem_iff_getElem?.1 hother
        exact hothers (j + 1) other (by rwa [List.getElem?_cons_succ]) (Nat.succ_ne_zero j)
      rw [hrest, Nat.add_zero]
    | succ i =>
      rw [hothers 0 first rfl (Nat.succ_ne_zero i).symm, Nat.zero_add]
      refine ih hnode fun j other hother hne ↦ hothers (j + 1) other ?_ (by omega)
      rwa [List.getElem?_cons_succ]

/-- A directory has the entries of its node. -/
theorem node_of_mem_entries {entry : Name × Inode} (h : entry ∈ fs.entries directory) :
    ∃ node, fs.nodes[directory]? = some node ∧ fs.entries directory = node.entries := by
  unfold entries node? at h ⊢
  split at h
  · next entries parent hnode => exact ⟨_, hnode, rfl⟩
  · cases h

/-- A node that has one name has no other. -/
theorem eq_of_nameCount_eq_one {other : Inode} {asked : Name} (hcount : fs.nameCount inode = 1)
    (h : fs.lookup directory name = some inode) (hother : fs.lookup other asked = some inode) :
    other = directory ∧ asked = name := by
  obtain ⟨node, hnode, hentries⟩ := node_of_mem_entries (mem_entries_of_lookup h)
  obtain ⟨node', hnode', hentries'⟩ := node_of_mem_entries (mem_entries_of_lookup hother)
  have hmem : (name, inode) ∈ node.entries := hentries ▸ mem_entries_of_lookup h
  have hmem' : (asked, inode) ∈ node'.entries := hentries' ▸ mem_entries_of_lookup hother
  have hdirectory : other = directory := by
    by_contra hne
    have hpositive : ∀ {node : Node} {name}, (name, inode) ∈ node.entries →
        0 < node.entries.countP (·.2 = inode) := fun h ↦
      List.countP_pos_iff.2 ⟨_, h, by simp⟩
    have hle : node'.entries.countP _ + node.entries.countP _ ≤ fs.nameCount inode :=
      countP_entries_add_le hnode' hnode hne
    have hfirst := hpositive hmem
    have hsecond := hpositive hmem'
    omega
  subst hdirectory
  cases hnode.symm.trans hnode'
  refine ⟨rfl, ?_⟩
  -- Two different names would be two of the entries that are counted.
  have hlength : (node.entries.filter (·.2 = inode)).length ≤ 1 := by
    rw [← List.countP_eq_length_filter]
    exact Nat.le_trans (countP_entries_le hnode) (Nat.le_of_eq hcount)
  have hcounted : (name, inode) ∈ node.entries.filter (·.2 = inode) :=
    List.mem_filter.2 ⟨hmem, by simp⟩
  have hcounted' : (asked, inode) ∈ node.entries.filter (·.2 = inode) :=
    List.mem_filter.2 ⟨hmem', by simp⟩
  generalize node.entries.filter _ = counted at hlength hcounted hcounted'
  rcases counted with _ | ⟨entry, _ | ⟨next, rest⟩⟩
  · cases hcounted
  · rw [← List.mem_singleton.1 hcounted] at hcounted'
    exact congrArg Prod.fst (List.mem_singleton.1 hcounted')
  · simp at hlength

/-! ## Sole names -/

/-- The file `inode` with these bytes has the name, and no other. -/
structure SoleFile (fs : FileSystem) (directory : Inode) (name : Name) (inode : Inode)
    (bytes : Bytes) : Prop where
  lookup : fs.lookup directory name = some inode
  node : fs.node? inode = some (.file bytes)
  only : ∀ other asked, fs.lookup other asked = some inode → other = directory ∧ asked = name

theorem IsLoneFile.soleFile (h : fs.IsLoneFile path)
    (hname : fs.nameOf? path = some (directory, name)) :
    ∃ inode bytes, SoleFile fs directory name inode bytes := by
  obtain ⟨inode, bytes, hentry, hnode, hcount⟩ := h
  have hlookup : fs.lookup directory name = some inode := by simpa [entryAt?, hname] using hentry
  exact ⟨inode, bytes, hlookup, hnode, fun _ _ hother ↦
    eq_of_nameCount_eq_one hcount hlookup hother⟩

namespace SoleFile

/-- A file keeps its name when its bytes change. -/
theorem modify {change : Node → Node} {changed : Bytes}
    (h : SoleFile fs directory name inode bytes)
    (hsame : Same Node.outline fs (fs.modify inode change))
    (hchange : change (.file bytes) = .file changed) :
    SoleFile (fs.modify inode change) directory name inode changed := by
  refine ⟨(hsame.lookup_eq _ _).trans h.lookup, ?_, ?_⟩
  · rw [node?_modify_same, h.node, Option.map_some, hchange]
  · intro other asked hother
    rw [hsame.lookup_eq] at hother
    exact h.only other asked hother

/-- More bytes written to a file stay its own. -/
theorem append (h : SoleFile fs directory name inode bytes) (more : Bytes) :
    SoleFile (fs.append inode more) directory name inode (bytes ++ more) :=
  h.modify (sameOutline_append fs inode more) rfl

/-- A sole file is counted once. -/
theorem nameCount_eq_one (h : SoleFile fs directory name inode bytes) (hfs : fs.WellFormed) :
    fs.nameCount inode = 1 := by
  have hmem := mem_entries_of_lookup h.lookup
  obtain ⟨node, hnode, hentries⟩ := node_of_mem_entries hmem
  obtain ⟨entries, parent, hdirectory⟩ := isDirectoryNode_iff.1 (isDirectoryNode_of_lookup h.lookup)
  obtain rfl : node = .directory entries parent := Option.some.inj (hnode.symm.trans hdirectory)
  have hlookup : ∀ {other : Inode} {found : Node} {asked : Name},
      fs.nodes[other]? = some found → (asked, inode) ∈ found.entries →
      other = directory ∧ asked = name := by
    intro other found asked hfound hasked
    refine h.only other asked (hfs.lookup_of_mem ?_)
    cases found with
    | directory => rwa [entries_of_node? hfound]
    | file => cases hasked
    | link => cases hasked
    | device => cases hasked
  rw [nameCount, countP_entries_eq hnode]
  · -- The names of a directory differ, so this one occurs in it once.
    have hnodup : entries.Nodup := (hfs.fitsInto hdirectory).2.1.of_map _
    rw [hentries] at hmem
    rw [← List.count_eq_one_of_mem hnodup hmem, List.count]
    refine List.countP_congr fun entry hentry ↦ ?_
    obtain ⟨asked, found⟩ := entry
    have hasked : found = inode → asked = name := by
      rintro rfl
      exact (hlookup hnode hentry).2
    simpa using hasked
  · intro other found hfound hne
    rw [List.countP_eq_zero]
    rintro ⟨asked, kept⟩ hentry hkept
    obtain rfl : kept = inode := by simpa using hkept
    exact hne (hlookup hfound hentry).1

theorem isLoneFile (h : SoleFile fs directory name inode bytes) (hfs : fs.WellFormed)
    (hname : fs.nameOf? path = some (directory, name)) : fs.IsLoneFile path :=
  ⟨inode, bytes, by simp [entryAt?, hname, h.lookup], h.node, h.nameCount_eq_one hfs⟩

/-- A sole file is what its path resolves to. -/
theorem resolve (h : SoleFile fs directory name inode bytes) (hfs : fs.WellFormed)
    (hcheck : checkPath path = .ok ()) (hname : fs.nameOf? path = some (directory, name))
    (hslash : (Route.ofPath path).slash = false) : fs.resolve path = .ok inode :=
  resolve_of_nameOf? hfs hcheck hname hslash h.lookup (by simp [h.node])

theorem read?_eq (h : SoleFile fs directory name inode bytes) (hfs : fs.WellFormed)
    (hcheck : checkPath path = .ok ()) (hname : fs.nameOf? path = some (directory, name))
    (hslash : (Route.ofPath path).slash = false) : fs.read? path = some bytes := by
  simp only [read?, h.resolve hfs hcheck hname hslash, h.node]

/-- A change that touches only a sole file is seen under its name only. -/
theorem unchangedBut {other : FileSystem} (h : SoleFile other directory name inode bytes)
    (htouches : TouchesOnly inode fs other) :
    UnchangedBut (fun asked askedName ↦ asked = directory ∧ askedName = name) fs other :=
  ⟨htouches.workingDirectory, htouches.parent, fun asked askedName hne ↦
    htouches.shown_eq fun hlookup ↦ hne (h.only asked askedName hlookup)⟩

end SoleFile

/-- Creating at a path that names nothing, or a file without another name, leaves an empty file
of which this is the sole name. -/
theorem Created.soleFile (hfs : fs.WellFormed) (h : Created fs path created target)
    (hcheck : checkPath path = .ok ()) (hname : fs.nameOf? path = some (directory, name))
    (hslash : (Route.ofPath path).slash = false)
    (hlone : fs.entryAt? path = none ∨ fs.IsLoneFile path) :
    SoleFile created directory name target [] := by
  rcases hlone with hnone | hlone
  · have hlookup : fs.lookup directory name = none := by simpa [entryAt?, hname] using hnone
    -- What the path resolves to would have an entry here.
    cases h with
    | emptied hresolve hplain =>
      obtain ⟨-, found, last, hfound, links, hleads⟩ := nameOf?_of_resolve hfs hresolve hplain
      rw [hname] at hfound
      cases hfound
      obtain ⟨inode, hsome⟩ := lookup_of_leads hfs hleads hplain
      rw [hlookup] at hsome
      cases hsome
    | new hplace hdirectory _ _ =>
      have hlink : fs.linkAt? directory name = none := by simp [linkAt?, hlookup]
      rw [placeOf_of_nameOf? hfs hname hlink, hslash] at hplace
      cases hplace
      refine ⟨by rw [lookup_withFile hdirectory, if_pos ⟨rfl, rfl⟩], node?_withFile_same,
        fun other asked hother ↦ ?_⟩
      rw [lookup_withFile hdirectory] at hother
      by_contra hne
      rw [if_neg hne] at hother
      exact Nat.lt_irrefl _ (hfs.lt_of_lookup hother)
  -- The name stands for a file, which is what the path resolves to.
  · obtain ⟨inode, bytes, hsole⟩ := hlone.soleFile hname
    cases h with
    | emptied hresolve hplain =>
      rw [hsole.resolve hfs hcheck hname hslash] at hresolve
      cases hresolve
      show SoleFile (fs.modify target .truncated) directory name target []
      exact hsole.modify (sameOutline_truncate fs target) rfl
    | new hplace _ _ hnone =>
      have hlink : fs.linkAt? directory name = none := by
        simp [linkAt?, hsole.lookup, hsole.node]
      rw [placeOf_of_nameOf? hfs hname hlink, hslash] at hplace
      cases hplace
      rw [hsole.lookup] at hnone
      cases hnone

end LineMigration.FileSystem
