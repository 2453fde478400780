import LineMigration.Proofs.FileSystem.Absolute

/-!
# Creating files

`Created fs path created target` lists what creating at a path can have done: emptied the node
that the path resolves to, or given a new file the last name that the path led to.
`created_of_create` says that it has done one of the two. Either way all old names lead where they
led, and new ones only to the new file (`Created.carries`, `Created.carries_back`).
-/

namespace LineMigration.FileSystem

open LineMigration.Path

variable {fs created : FileSystem} {directory found inode target asked : Inode} {name : Name}
  {names rest : List Name} {path : Text} {fuel : Nat} {last : LastLink} {slash : Bool}
  {text : Text} {route : Route}

/-! ## The last name of a walk -/

/-- Walks through plain directories end in names that they were given. -/
theorem names_of_descend {follow : Bool} {stop : Stop}
    (h : fs.descend follow directory names = .ok stop) :
    (∀ found name, stop = .entry found name → name ∈ names) ∧
      ∀ found text rest, stop = .link found text rest → rest ⊆ names := by
  induction names generalizing directory with
  | nil =>
    cases h
    exact ⟨fun _ _ heq ↦ (by cases heq), fun _ _ _ heq ↦ (by cases heq)⟩
  | cons first others ih =>
    cases others with
    | nil =>
      simp only [descend] at h
      split at h
      · cases h
        refine ⟨fun _ _ heq ↦ (by cases heq), ?_⟩
        intro _ _ _ heq
        cases heq
        exact List.nil_subset _
      · cases h
        refine ⟨?_, fun _ _ _ heq ↦ (by cases heq)⟩
        intro _ _ heq
        cases heq
        exact List.mem_cons_self
    | cons next others =>
      simp only [descend] at h
      split at h
      · cases h
      · split at h
        · obtain ⟨hentry, hlink⟩ := ih h
          exact ⟨fun found name heq ↦ List.mem_cons_of_mem _ (hentry found name heq),
            fun found text rest heq ↦ List.subset_cons_of_subset _ (hlink found text rest heq)⟩
        · cases h
          refine ⟨fun _ _ heq ↦ (by cases heq), ?_⟩
          intro _ _ _ heq
          cases heq
          exact List.subset_cons_self _ _
        · cases h

/-- A name as a path spells it. -/
def IsSpelled (name : Name) : Prop := name ≠ [] ∧ '/' ∉ name

theorem isSpelled_of_mem_ofPath (h : name ∈ (Route.ofPath path).names) : IsSpelled name := by
  obtain ⟨hmem, hne⟩ := List.mem_filter.1 h
  exact ⟨by simpa using hne, slash_not_mem_of_mem_pieces hmem⟩

/-- A walk ends in a name that a path spells: its own, or the text of a link. -/
theorem isSpelled_of_walk (hnames : ∀ name ∈ route.names, IsSpelled name)
    (h : fs.walk last fuel directory route = .ok (.entry found name slash)) : IsSpelled name := by
  induction fuel generalizing directory route with
  | zero =>
    rw [walk_eq] at h
    split at h
    · cases h
    · cases h
    · next reached other hstop =>
      cases h
      exact hnames _ ((names_of_descend hstop).1 _ _ rfl)
    · cases h
  | succ fuel ih =>
    rw [walk_eq] at h
    split at h
    · cases h
    · cases h
    · next reached other hstop =>
      cases h
      exact hnames _ ((names_of_descend hstop).1 _ _ rfl)
    · next reached text rest hstop =>
      refine ih ?_ h
      intro other hmem
      -- The walk goes on with the names of the text and with those it had.
      rcases List.mem_append.1 hmem with htext | hrest
      · exact isSpelled_of_mem_ofPath htext
      · exact hnames other ((names_of_descend hstop).2 _ _ _ rfl hrest)

/-- A slash at the end of the names stays there. -/
theorem slash_of_walk (hslash : route.slash = true)
    (h : fs.walk last fuel directory route = .ok (.entry found name slash)) : slash = true := by
  induction fuel generalizing directory route with
  | zero =>
    rw [walk_eq] at h
    split at h
    · cases h
    · cases h
    · cases h
      exact hslash
    · cases h
  | succ fuel ih =>
    rw [walk_eq] at h
    split at h
    · cases h
    · cases h
    · cases h
      exact hslash
    · exact ih (by simp [Route.append, hslash]) h

/-- So where there is one, none is lost. -/
theorem walk_ne_of_slash (hslash : route.slash = true) :
    fs.walk last fuel directory route ≠ .ok (.entry found name false) :=
  fun h ↦ Bool.noConfusion (slash_of_walk hslash h)

/-- Where none comes at the end, there was none. -/
theorem slash_eq_false_of_walk
    (h : fs.walk last fuel directory route = .ok (.entry found name false)) :
    route.slash = false :=
  Bool.eq_false_iff.2 fun hslash ↦ walk_ne_of_slash hslash h

/-- Where no slash comes at the end, links before it are not spared. -/
theorem walk_followBare_iff :
    fs.walk .followBare fuel directory route = .ok (.entry found name false) ↔
      fs.walk .follow fuel directory route = .ok (.entry found name false) := by
  induction fuel generalizing directory route with
  | zero =>
    cases hslash : route.slash with
    | true => simp [walk_ne_of_slash hslash]
    | false =>
      rw [walk_eq, walk_eq, hslash]
      rfl
  | succ fuel ih =>
    cases hslash : route.slash with
    | true => simp [walk_ne_of_slash hslash]
    | false =>
      rw [walk_eq, walk_eq, hslash]
      simp only [LastLink.follows, Bool.not_false]
      cases fs.descend true directory route.names with
      | error cause => rfl
      | ok stop =>
        cases stop with
        | top | entry => rfl
        | link => exact ih

/-- A walk without a last name has come to a directory. -/
theorem isDirectoryNode_of_walk_top (hfs : fs.WellFormed)
    (hdirectory : fs.isDirectoryNode directory = true)
    (h : fs.walk last fuel directory ⟨names, slash⟩ = .ok (.top found)) :
    fs.isDirectoryNode found = true := by
  -- As for `leads_of_walk`, a link puts its names before the others and takes one from the links.
  induction fuel using Nat.strongRecOn generalizing directory names slash with
  | ind fuel ihfuel =>
    induction names generalizing directory with
    | nil =>
      rw [walk_nil] at h
      cases h
      exact hdirectory
    | cons name rest ih =>
      by_cases hrest : rest = []
      · subst hrest
        by_cases hlast : last.follows slash = true → fs.linkAt? directory name = none
        · rw [walk_last hlast] at h
          cases h
        · obtain ⟨hfollows, hlink⟩ := Classical.not_imp.1 hlast
          obtain ⟨target, htarget⟩ := Option.ne_none_iff_exists'.1 hlink
          rw [walk_last_link hfollows htarget] at h
          cases fuel with
          | zero => cases h
          | succ fewer =>
            exact ihfuel fewer (Nat.lt_succ_self _)
              (hfs.isDirectoryNode_startOf hdirectory target) h
      · obtain ⟨inode, hchild, hinode | ⟨target, htarget⟩⟩ := child_of_walk hrest h
        · rw [walk_directory hrest hchild hinode] at h
          exact ih hinode h
        · rw [walk_link hrest hchild htarget] at h
          cases fuel with
          | zero => cases h
          | succ fewer =>
            exact ihfuel fewer (Nat.lt_succ_self _)
              (hfs.isDirectoryNode_startOf hdirectory target) h

/-! ## A new file under a name -/

/-- The file system with a new, empty file under a name of a directory. -/
def withFile (fs : FileSystem) (directory : Inode) (name : Name) : FileSystem :=
  (fs.add (.file [])).1.setName directory name fs.nodes.length

theorem sameFaces_withFile :
    Same Node.face (fs.add (.file [])).1 (fs.withFile directory name) :=
  sameFaces_setName _ directory name _

theorem isDirectoryNode_withFile :
    (fs.withFile directory name).isDirectoryNode asked = fs.isDirectoryNode asked := by
  rw [sameFaces_withFile.isDirectoryNode_eq, isDirectoryNode_add_file]

theorem parent?_withFile : (fs.withFile directory name).parent? asked = fs.parent? asked := by
  rw [sameFaces_withFile.parent?_eq, parent?_add_file]

theorem lookup_withFile (hdirectory : fs.isDirectoryNode directory = true) (askedName : Name) :
    (fs.withFile directory name).lookup asked askedName =
      if asked = directory ∧ askedName = name then some fs.nodes.length
      else fs.lookup asked askedName := by
  have hadded : (fs.add (.file [])).1.isDirectoryNode directory = true := by
    rw [isDirectoryNode_add_file]
    exact hdirectory
  rw [withFile, lookup_setName hadded, lookup_add_file]

theorem node?_withFile_same :
    (fs.withFile directory name).node? fs.nodes.length = some (.file []) := by
  refine sameFaces_withFile.node?_plain ?_ rfl
  rw [node?_add, if_pos rfl]

theorem face_withFile (h : asked ≠ fs.nodes.length) :
    ((fs.withFile directory name).node? asked).map Node.face =
      (fs.node? asked).map Node.face := by
  rw [sameFaces_withFile.view, node?_add, if_neg h]

theorem WellFormed.withFile (hfs : fs.WellFormed) (hname : IsEntryName name) :
    (fs.withFile directory name).WellFormed :=
  (hfs.add (Node.fitsInto_of_plain rfl)).setName hname (by simp)

/-! ## What creating does -/

/-- What creating at a path can have done. -/
inductive Created (fs : FileSystem) (path : Text) : FileSystem → Inode → Prop where
  /-- The node that the path resolves to has lost its content. -/
  | emptied {target : Inode} : fs.resolve path = .ok target →
      fs.isDirectoryNode target = false → Created fs path (fs.modify target .truncated) target
  /-- A name that stood for nothing has been given to a new file. -/
  | new {directory : Inode} {name : Name} :
      fs.placeOf .follow path = .ok (.entry directory name false) →
      fs.isDirectoryNode directory = true → IsEntryName name → fs.lookup directory name = none →
      Created fs path (fs.withFile directory name) fs.nodes.length

/-- A name within the limit, other than the dots, stands for nothing where it is not found. -/
theorem lookup_of_child_noEntry (h : fs.child directory name = .error (.system .noEntry)) :
    fs.isDirectoryNode directory = true ∧ fs.lookup directory name = none ∧
      isDots name = false ∧ (Text.utf8 name).length ≤ nameLimit := by
  unfold child at h
  split at h
  · next entries parent hnode =>
    split at h
    · cases h
    next hhere =>
    split at h
    · cases h
    next habove =>
    split at h
    · cases h
    next hlength =>
    split at h
    · cases h
    next hlookup =>
    rw [lookup, entries_of_node? hnode]
    exact ⟨isDirectoryNode_iff.2 ⟨_, _, hnode⟩, hlookup,
      isDots_eq_false_iff.2 ⟨hhere, habove⟩, Nat.le_of_not_lt hlength⟩
  · cases h

/-- So a name at which a walk ends and nothing is found is one that an entry can have. -/
theorem isEntryName_of_walk (hnames : ∀ name ∈ route.names, IsSpelled name)
    (hwalk : fs.walk last fuel directory route = .ok (.entry found name slash))
    (hchild : fs.child found name = .error (.system .noEntry)) : IsEntryName name := by
  have hspelled : IsSpelled name := isSpelled_of_walk hnames hwalk
  obtain ⟨-, -, hdots, hlength⟩ := lookup_of_child_noEntry hchild
  exact ⟨hspelled.1, hspelled.2, hdots, hlength⟩

/-- Creating does one of two things, or fails. -/
theorem created_of_create (h : fs.create path = .ok (created, target)) :
    checkPath path = .ok () ∧ Created fs path created target := by
  obtain ⟨_, hcheck, h⟩ := bind_eq_ok_iff.1 h
  obtain ⟨place, hplace, h⟩ := bind_eq_ok_iff.1 h
  refine ⟨hcheck, ?_⟩
  split at h
  · cases h
  next directory name slash =>
  split at h
  · cases h
  next hplain =>
  obtain rfl : slash = false := by
    simp only [Bool.not_eq_true, Bool.or_eq_false_iff] at hplain
    exact hplain.1
  -- The place has no slash after it, so no link on the way to it was spared.
  have hfollow : fs.placeOf .follow path = .ok (.entry directory name false) :=
    walk_followBare_iff.1 hplace
  split at h
  · next inode hchild =>
    split at h
    · cases h
    next hnot =>
    cases h
    exact .emptied (resolve_eq_ok_iff_placeOf.2 ⟨hcheck, _, hfollow,
      nodeAt_entry_eq_ok_iff.2 ⟨hchild, nofun⟩⟩) (Bool.not_eq_true _ ▸ hnot)
  · next hchild =>
    obtain ⟨hdirectory, hlookup, -⟩ := lookup_of_child_noEntry hchild
    unfold addNamed at h
    split at h
    · cases h
      have hname : IsEntryName name :=
        isEntryName_of_walk (fun _ ↦ isSpelled_of_mem_ofPath) hplace hchild
      exact .new hfollow hdirectory hname hlookup
    · cases h
  · cases h

/-- A path that resolves to a plain node can be created: the node loses its content. -/
theorem create_of_resolve (hfs : fs.WellFormed) (hresolve : fs.resolve path = .ok inode)
    (hplain : fs.isDirectoryNode inode = false) :
    fs.create path = .ok (fs.modify inode .truncated, inode) := by
  obtain ⟨hcheck, place, hplace, hnode⟩ := resolve_eq_ok_iff_placeOf.1 hresolve
  cases place with
  | top found =>
    cases hnode
    have hstart := hfs.isDirectoryNode_startOf hfs.workingDirectory path
    rw [isDirectoryNode_of_walk_top hfs hstart hplace] at hplain
    cases hplain
  | entry found name slash =>
    obtain ⟨hchild, hslash⟩ := nodeAt_entry_eq_ok_iff.1 hnode
    have hdots : isDots name = false := Bool.eq_false_iff.2 fun hname ↦ by
      rw [isDirectoryNode_of_child_dots hfs hname hchild] at hplain
      cases hplain
    obtain rfl : slash = false := Bool.eq_false_iff.2 fun htrue ↦ by
      rw [hslash htrue] at hplain
      cases hplain
    have hbare : fs.placeOf .followBare path = .ok (.entry found name false) :=
      walk_followBare_iff.2 hplace
    simp only [create, bind, Except.bind, hcheck, hbare, hdots, hchild, hplain, Bool.or_self,
      Bool.false_eq_true, if_false]

/-! ## What creating leaves alone -/

/-- With a new file, its name leads to it, and all others lead where they led. -/
theorem child_withFile_eq_ok_iff (hfs : fs.WellFormed)
    (hdirectory : fs.isDirectoryNode directory = true) (hname : IsEntryName name)
    (hnone : fs.lookup directory name = none) {askedName : Name} :
    (fs.withFile directory name).child asked askedName = .ok inode ↔
      (asked = directory ∧ askedName = name) ∧ inode = fs.nodes.length ∨
        fs.child asked askedName = .ok inode := by
  rw [(hfs.withFile hname).child_eq_ok_iff, hfs.child_eq_ok_iff, isDirectoryNode_withFile,
    parent?_withFile, lookup_withFile hdirectory]
  by_cases h : asked = directory ∧ askedName = name
  · obtain ⟨rfl, rfl⟩ := h
    obtain ⟨hhere, habove⟩ := isDots_eq_false_iff.1 hname.2.2.1
    simp only [hhere, habove, hnone, and_self, if_true, false_and, and_false, true_and, false_or,
      or_false, Option.some.injEq, reduceCtorEq]
    exact eq_comm
  · simp [h]

/-- A new file is no link. -/
theorem link_withFile_iff : fs.node? asked = some (.link text) ↔
    (fs.withFile directory name).node? asked = some (.link text) := by
  by_cases h : asked = fs.nodes.length
  · rw [h, node?_withFile_same, node?_length]
    simp
  · have hface : ((fs.withFile directory name).node? asked).map Node.face = _ := face_withFile h
    exact ⟨fun hnode ↦ node?_of_face hface hnode rfl,
      fun hnode ↦ node?_of_face hface.symm hnode rfl⟩

namespace Created

theorem wellFormed (hfs : fs.WellFormed) (h : Created fs path created target) :
    created.WellFormed := by
  cases h with
  | emptied =>
    show (fs.modify target .truncated).WellFormed
    exact (sameOutline_truncate fs target).wellFormed hfs
  | new _ _ hname =>
    show (fs.withFile _ _).WellFormed
    exact hfs.withFile hname

/-- Old names lead where they led. -/
theorem carries (hfs : fs.WellFormed) (h : Created fs path created target) :
    Carries fs created fun _ ↦ True := by
  cases h with
  | emptied =>
    show Carries fs (fs.modify target .truncated) fun _ ↦ True
    exact (sameOutline_truncate fs target).carries
  | new _ hdirectory hname hnone =>
    refine ⟨?_, fun _ _ ↦ trivial, fun _ _ ↦ link_withFile_iff, ?_⟩
    · intro inode h
      rwa [isDirectoryNode_withFile]
    · intro asked askedName inode links final hchild _ _
      exact (child_withFile_eq_ok_iff hfs hdirectory hname hnone).2 (Or.inr hchild)

/-- What is led to afterwards, but for a new file, was led to before. -/
theorem carries_back (hfs : fs.WellFormed) (h : Created fs path created target) :
    Carries created fs fun inode ↦ inode < fs.nodes.length := by
  cases h with
  | emptied =>
    have hsame := sameOutline_truncate fs target
    exact ⟨fun _ hinode ↦ hsame.symm.isDirectoryNode hinode,
      fun _ hinode ↦ lt_of_isDirectoryNode (hsame.symm.isDirectoryNode hinode),
      hsame.symm.carries.link, fun _ _ _ _ _ hchild _ _ ↦ hsame.symm.child hchild⟩
  | new _ hdirectory hname hnone =>
    refine ⟨?_, ?_, fun _ _ ↦ link_withFile_iff.symm, ?_⟩
    · intro inode h
      rwa [isDirectoryNode_withFile] at h
    · intro inode h
      rw [isDirectoryNode_withFile] at h
      exact lt_of_isDirectoryNode h
    · intro asked askedName inode links final hchild hleads hfinal
      rcases (child_withFile_eq_ok_iff hfs hdirectory hname hnone).1 hchild with ⟨-, hnew⟩ | hold
      · -- The new name leads to the new file and no further.
        subst hnew
        cases hleads with
        | step hchild' _ hrest =>
          cases hrest
          rw [hchild] at hchild'
          cases hchild'
          exact absurd hfinal (Nat.lt_irrefl _)
        | follow hchild' htarget =>
          rw [hchild] at hchild'
          cases hchild'
          rw [node?_withFile_same] at htarget
          cases htarget
      · exact hold

theorem sameDirectories (hfs : fs.WellFormed) (h : Created fs path created target) :
    SameDirectories fs created := by
  refine ⟨?_, (h.carries hfs).directories, (h.carries_back hfs).directories⟩
  cases h <;> rfl

/-- Nothing but the target looks different. -/
theorem touchesOnly (h : Created fs path created target) : TouchesOnly target fs created := by
  cases h with
  | emptied =>
    show TouchesOnly target fs (fs.modify target .truncated)
    exact touchesOnly_modify outline_truncated fs target
  | @new directory name _ hdirectory _ hnone =>
    refine ⟨rfl, fun _ ↦ parent?_withFile, fun _ hne ↦ face_withFile hne, fun asked askedName ↦ ?_⟩
    rw [lookup_withFile hdirectory]
    by_cases h : asked = directory ∧ askedName = name
    · obtain ⟨rfl, rfl⟩ := h
      rw [if_pos ⟨rfl, rfl⟩]
      exact Or.inr ⟨hnone, rfl⟩
    · rw [if_neg h]
      exact Or.inl rfl

/-- The target is a plain node without content. -/
theorem contents_target (h : Created fs path created target) : created.contents target = [] := by
  cases h with
  | emptied _ hplain =>
    simp only [contents, node?_modify_same]
    cases hnode : fs.node? target with
    | none => rfl
    | some node => cases node <;> rfl
  | new => simp only [contents, node?_withFile_same, Node.contents]

end Created

/-! ## Writing to what was created -/

/-- The tree `other` is `fs` with a file that was created and written, `target`: names that were
there lead where they led, and to the target only new ones can. -/
structure WritesTo (target : Inode) (fs other : FileSystem) : Prop where
  wellFormed : other.WellFormed
  sameDirectories : SameDirectories fs other
  carries : Carries fs other fun _ ↦ True
  back : Carries other fs fun inode ↦ inode < fs.nodes.length
  touches : TouchesOnly target fs other

theorem Created.writesTo (hfs : fs.WellFormed) (h : Created fs path created target)
    (bytes : Bytes) : WritesTo target fs (created.append target bytes) := by
  have hsame := sameOutline_append created target bytes
  have hback : Carries (created.append target bytes) created fun inode ↦
      inode < fs.nodes.length :=
    hsame.symm.carries.narrow
      (fun inode hinode ↦ (h.carries_back hfs).walked inode (hsame.symm.isDirectoryNode hinode))
      fun _ _ ↦ trivial
  exact ⟨hsame.wellFormed (h.wellFormed hfs),
    (h.sameDirectories hfs).trans hsame.sameDirectories,
    (h.carries hfs).trans hsame.carries fun _ _ ↦ trivial,
    hback.trans (h.carries_back hfs) fun _ hlt ↦ hlt,
    h.touchesOnly.trans (touchesOnly_modify (outline_extended bytes) created target)⟩

end LineMigration.FileSystem
