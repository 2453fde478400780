import LineMigration.Proofs.FileSystem.Detour
import LineMigration.Proofs.FileSystem.Rename

/-!
# Where names lead after a move

`PlainMove fs source target moved` says that a node which is no directory is moved from the name
`source` to the name `target`. Nothing else changes (`PlainMove.agreeBut`), so if the two names
lead to no directory, before and after, all paths end in the names that they ended in
(`PlainMove.sameDirectories`).

Within one directory the new name leads where the old one led, be it over links: these cannot come
by the new name itself, as they would never end (`PlainMove.leads_of_leads_target`), and they do
not come by the node that had the new name, if they end elsewhere (`PlainMove.leads_target`).
-/

namespace LineMigration.FileSystem

open LineMigration.Path

variable {fs : FileSystem} {source target : Inode × Name} {moved directory final : Inode}
  {name oldName newName : Name} {before : List Name} {links : Nat} {path : Text}

/-- A node that is no directory is moved from one name to another. -/
structure PlainMove (fs : FileSystem) (source target : Inode × Name) (moved : Inode) : Prop where
  wellFormed : fs.WellFormed
  lookup : fs.lookup source.1 source.2 = some moved
  plain : fs.isDirectoryNode moved = false
  targetName : IsEntryName target.2
  targetDirectory : fs.isDirectoryNode target.1 = true
  differ : target ≠ source

namespace PlainMove

/-- The names that take part in the move. -/
def Takes (source target : Inode × Name) (directory : Inode) (name : Name) : Prop :=
  (directory, name) = source ∨ (directory, name) = target

section

variable (h : PlainMove fs source target moved)
include h

theorem sourceDirectory : fs.isDirectoryNode source.1 = true := isDirectoryNode_of_lookup h.lookup

theorem wellFormed_after : (fs.relocate source target moved).WellFormed :=
  h.wellFormed.relocate (h.wellFormed.lt_of_lookup h.lookup) h.targetName h.targetDirectory

theorem sameFaces : Same Node.face fs (fs.relocate source target moved) :=
  sameFaces_relocate h.plain

/-- The old name stands for nothing, and the new one for what was moved. -/
theorem lookup_after (directory : Inode) (name : Name) :
    (fs.relocate source target moved).lookup directory name =
      if (directory, name) = source then none
      else if (directory, name) = target then some moved
      else fs.lookup directory name := by
  have hlookup := @lookup_relocate fs moved directory source.1 target.1 name source.2 target.2
    h.plain h.sourceDirectory h.targetDirectory
  simpa only [Prod.ext_iff] using hlookup

/-- Other names stand for what they stood for. -/
theorem lookup_after_of_not_takes (hname : ¬ Takes source target directory name) :
    (fs.relocate source target moved).lookup directory name = fs.lookup directory name := by
  rw [h.lookup_after, if_neg fun heq ↦ hname (.inl heq), if_neg fun heq ↦ hname (.inr heq)]

theorem link_iff (inode : Inode) (text : Text) : fs.node? inode = some (.link text) ↔
    (fs.relocate source target moved).node? inode = some (.link text) :=
  ⟨fun hnode ↦ h.sameFaces.node?_plain hnode rfl,
    fun hnode ↦ h.sameFaces.symm.node?_plain hnode rfl⟩

/-- A move changes the names that take part in it, and no other. -/
theorem agreeBut : AgreeBut (Takes source target) fs (fs.relocate source target moved) := by
  refine ⟨fun inode hinode ↦ ?_, h.link_iff, fun asked name inode hname hchild ↦ ?_⟩
  · rwa [h.sameFaces.isDirectoryNode_eq]
  · refine h.sameFaces.child_of_lookup h.wellFormed h.wellFormed_after hchild fun hentry ↦ ?_
    rw [h.lookup_after_of_not_takes hname, hentry]

theorem agreeBut_back : AgreeBut (Takes source target) (fs.relocate source target moved) fs := by
  refine ⟨fun inode hinode ↦ ?_, fun inode text ↦ (h.link_iff inode text).symm,
    fun asked name inode hname hchild ↦ ?_⟩
  · rwa [h.sameFaces.isDirectoryNode_eq] at hinode
  · refine h.sameFaces.symm.child_of_lookup h.wellFormed_after h.wellFormed hchild
      fun hentry ↦ ?_
    rw [← h.lookup_after_of_not_takes hname, hentry]

/-- The old name leads nowhere. -/
theorem not_leads_source :
    ¬ (fs.relocate source target moved).Leads source.1 [source.2] links final := by
  have hdots := (h.wellFormed.isEntryName h.lookup).2.2.1
  have hnone : (fs.relocate source target moved).lookup source.1 source.2 = none := by
    rw [h.lookup_after, if_pos rfl]
  intro hleads
  cases hleads with
  | step hchild =>
    rw [h.wellFormed_after.lookup_of_child hdots hchild] at hnone
    cases hnone
  | follow hchild =>
    rw [h.wellFormed_after.lookup_of_child hdots hchild] at hnone
    cases hnone

/-- The new name leads on from what was moved. -/
theorem child_target : (fs.relocate source target moved).child target.1 target.2 = .ok moved := by
  refine h.wellFormed_after.child_of_lookup ?_
  rw [h.lookup_after, if_neg h.differ, if_pos rfl]

/-- Where the names that take part lead to no directory, all directories stay where they are. -/
theorem sameDirectories
    (hsource : ∀ links final, fs.Leads source.1 [source.2] links final →
      fs.isDirectoryNode final = false)
    (htarget : ∀ links final, fs.Leads target.1 [target.2] links final →
      fs.isDirectoryNode final = false)
    (hafter : ∀ links final,
      (fs.relocate source target moved).Leads target.1 [target.2] links final →
        fs.isDirectoryNode final = false) :
    SameDirectories fs (fs.relocate source target moved) := by
  refine ⟨h.sameFaces.workingDirectory, h.agreeBut.carries ?_, h.agreeBut_back.carries ?_⟩
  · rintro asked name links final (rfl | rfl) hleads
    · exact hsource links final hleads
    · exact htarget links final hleads
  · rintro asked name links final (rfl | rfl) hleads
    · exact absurd hleads h.not_leads_source
    · rw [h.sameFaces.isDirectoryNode_eq]
      exact hafter links final hleads

end

/-! ## A move within a directory -/

variable (h : PlainMove fs (directory, oldName) (directory, newName) moved)
include h

/-- The new name leads nowhere but where the old one led. -/
theorem leads_of_leads_target
    (hleads : (fs.relocate (directory, oldName) (directory, newName) moved).Leads directory
      [newName] links final) : fs.Leads directory [oldName] links final := by
  have hunique := hleads
  cases hleads with
  | step hchild hplain hrest =>
    cases hrest
    cases hchild.symm.trans h.child_target
    exact .step (h.wellFormed.child_of_lookup h.lookup)
      (fun text htext ↦ hplain text ((h.link_iff moved text).1 htext)) (.here moved)
  | @follow _ _ middle _ _ _ text within _ hchild htext hwithin hslash hrest =>
    cases hrest
    cases hchild.symm.trans h.child_target
    rcases hwithin.detour h.agreeBut_back with hbefore |
      ⟨asked, name, fewer, reached, htakes | htakes, hle, hreached, -⟩
    · exact .follow (h.wellFormed.child_of_lookup h.lookup) ((h.link_iff moved text).2 htext)
        hbefore (fun hends ↦ h.agreeBut_back.directory _ (hslash hends)) (.here _)
    · cases htakes
      exact absurd hreached h.not_leads_source
    · -- The link would be followed again on its own way.
      cases htakes
      obtain ⟨heq, -⟩ := hunique.unique hreached
      omega

/-- If neither name leads to a directory, all directories stay where they are. -/
theorem sameDirectories_of_leads {reached : Inode} {more : Nat}
    (hold : fs.Leads directory [oldName] links final) (hfinal : fs.isDirectoryNode final = false)
    (hnew : fs.Leads directory [newName] more reached)
    (hreached : fs.isDirectoryNode reached = false) :
    SameDirectories fs (fs.relocate (directory, oldName) (directory, newName) moved) := by
  refine h.sameDirectories (fun _ _ hleads ↦ ?_) (fun _ _ hleads ↦ ?_) fun _ _ hleads ↦ ?_
  · rw [(hleads.unique hold).2]
    exact hfinal
  · rw [(hleads.unique hnew).2]
    exact hreached
  · rw [((h.leads_of_leads_target hleads).unique hold).2]
    exact hfinal

/-- The new name leads where the old one led, if what had the new name led to another node that
is no directory. -/
theorem leads_target (hleads : fs.Leads directory [oldName] links final)
    (hother : ∀ links reached, fs.Leads directory [newName] links reached →
      reached ≠ final ∧ fs.isDirectoryNode reached = false) :
    (fs.relocate (directory, oldName) (directory, newName) moved).Leads directory [newName] links
      final := by
  have hunique := hleads
  have hmoved := h.wellFormed.child_of_lookup h.lookup
  cases hleads with
  | step hchild hplain hrest =>
    cases hrest
    cases hchild.symm.trans hmoved
    exact .step h.child_target (fun text htext ↦ hplain text ((h.link_iff moved text).2 htext))
      (.here moved)
  | @follow _ _ middle _ _ _ text within _ hchild htext hwithin hslash hrest =>
    cases hrest
    cases hchild.symm.trans hmoved
    rcases hwithin.detour h.agreeBut with hafter |
      ⟨asked, name, fewer, reached, htakes | htakes, hle, hreached, hend⟩
    · exact .follow h.child_target ((h.link_iff moved text).1 htext) hafter
        (fun hends ↦ h.agreeBut.directory _ (hslash hends)) (.here _)
    · cases htakes
      obtain ⟨heq, -⟩ := hunique.unique hreached
      omega
    · cases htakes
      obtain ⟨hne, hplain⟩ := hother fewer reached hreached
      rcases hend with heq | hdirectory
      · exact absurd heq hne
      · rw [hplain] at hdirectory
        cases hdirectory

/-! ### The path of the new name -/

variable (hsame : SameDirectories fs (fs.relocate (directory, oldName) (directory, newName) moved))
  (hnames : (Route.ofPath path).names = before ++ [newName])
  (hslash : (Route.ofPath path).slash = false)
  (hbefore : fs.Leads (startOf fs.workingDirectory path) before links directory)
include hsame hnames hslash hbefore

/-- A path of the new name leads on as that name does. -/
theorem resolve_eq_ok_iff_target :
    (fs.relocate (directory, oldName) (directory, newName) moved).resolve path = .ok final ↔
      checkPath path = .ok () ∧ ∃ more, links + more ≤ maxLinks ∧
        (fs.relocate (directory, oldName) (directory, newName) moved).Leads directory [newName] more
          final := by
  refine resolve_eq_ok_iff_of_leads h.wellFormed_after hnames ?_ hslash
  rw [hsame.workingDirectory]
  exact hbefore.carry hsame.there h.targetDirectory

/-- It resolves to nothing but what the old name led to. -/
theorem leads_of_resolve
    (hresolve : (fs.relocate (directory, oldName) (directory, newName) moved).resolve path =
      .ok final) : ∃ more, fs.Leads directory [oldName] more final := by
  obtain ⟨-, more, -, hmore⟩ :=
    (h.resolve_eq_ok_iff_target hsame hnames hslash hbefore).1 hresolve
  exact ⟨more, h.leads_of_leads_target hmore⟩

/-- It resolves to that, if the new name led to another node that is no directory. -/
theorem resolve_of_leads {more : Nat} (hcheck : checkPath path = .ok ())
    (hle : links + more ≤ maxLinks) (hleads : fs.Leads directory [oldName] more final)
    (hother : ∀ links reached, fs.Leads directory [newName] links reached →
      reached ≠ final ∧ fs.isDirectoryNode reached = false) :
    (fs.relocate (directory, oldName) (directory, newName) moved).resolve path = .ok final :=
  (h.resolve_eq_ok_iff_target hsame hnames hslash hbefore).2
    ⟨hcheck, more, hle, h.leads_target hleads hother⟩

end PlainMove

end LineMigration.FileSystem
