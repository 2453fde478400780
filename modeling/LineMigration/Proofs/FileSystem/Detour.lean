import LineMigration.Proofs.FileSystem.Carry

/-!
# Trees that agree but for some names

`AgreeBut changed fs other` says that `other` has the directories and links of `fs`, and that all
names but the changed ones stand for what they stood for. What names lead to in `fs` they then lead
to in `other` as well, or they come by a changed name on the way, over no more links than they
follow in all (`Leads.detour`). Where the changed names lead to no directory, they can only be the
last ones met, and the directories are led to as before (`AgreeBut.carries`).
-/

namespace LineMigration.FileSystem

variable {changed : Inode → Name → Prop} {fs other : FileSystem} {directory final : Inode}
  {names : List Name} {links : Nat}

/-- All names but the changed ones stand for the same in `other`, which has the directories and
the links of `fs`. -/
structure AgreeBut (changed : Inode → Name → Prop) (fs other : FileSystem) : Prop where
  directory : ∀ inode, fs.isDirectoryNode inode = true → other.isDirectoryNode inode = true
  link : ∀ inode target,
    fs.node? inode = some (.link target) ↔ other.node? inode = some (.link target)
  child : ∀ directory name inode, ¬ changed directory name →
    fs.child directory name = .ok inode → other.child directory name = .ok inode

/-- Names are walked from a directory, unless there are none. -/
theorem Leads.eq_or_isDirectoryNode (h : fs.Leads directory names links final) :
    directory = final ∨ fs.isDirectoryNode directory = true := by
  cases h with
  | here => exact .inl rfl
  | step hchild => exact .inr (isDirectoryNode_of_child hchild)
  | follow hchild => exact .inr (isDirectoryNode_of_child hchild)

/-- Names lead where they led, or come by a changed name: that one leads to the same node, or else
to a directory, over no more links. -/
theorem Leads.detour (hleads : fs.Leads directory names links final)
    (h : AgreeBut changed fs other) :
    other.Leads directory names links final ∨
      ∃ asked name fewer reached, changed asked name ∧ fewer ≤ links ∧
        fs.Leads asked [name] fewer reached ∧
        (reached = final ∨ fs.isDirectoryNode reached = true) := by
  induction hleads with
  | here => exact .inl (.here _)
  | @step directory inode final name rest links hchild hplain hrest ih =>
    by_cases hchanged : changed directory name
    · exact .inr ⟨directory, name, 0, inode, hchanged, Nat.zero_le _,
        .step hchild hplain (.here inode), hrest.eq_or_isDirectoryNode⟩
    · refine ih.imp_left fun hother ↦ .step (h.child _ _ _ hchanged hchild) ?_ hother
      exact fun target htarget ↦ hplain target ((h.link inode target).2 htarget)
  | @follow directory inode middle final name rest target within after hchild htarget hwithin
      hslash hrest ihwithin ihrest =>
    have hmiddle := hrest.eq_or_isDirectoryNode
    by_cases hchanged : changed directory name
    · exact .inr ⟨directory, name, within + 0 + 1, middle, hchanged, by omega,
        .follow hchild htarget hwithin hslash (.here middle), hmiddle⟩
    · rcases ihwithin with hother | ⟨asked, passed, fewer, reached, hpassed, hle, hreached, hend⟩
      · refine (ihrest.imp_left fun hbehind ↦ ?_).imp_right ?_
        · exact .follow (h.child _ _ _ hchanged hchild) ((h.link inode target).1 htarget) hother
            (fun htext ↦ h.directory middle (hslash htext)) hbehind
        · rintro ⟨asked, passed, fewer, reached, hpassed, hle, hreached, hend⟩
          exact ⟨asked, passed, fewer, reached, hpassed, by omega, hreached, hend⟩
      · refine .inr ⟨asked, passed, fewer, reached, hpassed, by omega, hreached, ?_⟩
        rcases hend with rfl | hdirectory
        · exact hmiddle
        · exact .inr hdirectory

/-- Where no changed name leads to a directory, the directories are led to as before. -/
theorem AgreeBut.carries (h : AgreeBut changed fs other)
    (hplain : ∀ directory name links final, changed directory name →
      fs.Leads directory [name] links final → fs.isDirectoryNode final = false) :
    Carries fs other fun inode ↦ fs.isDirectoryNode inode = true := by
  refine ⟨h.directory, fun _ hinode ↦ hinode, h.link, ?_⟩
  intro directory name inode links final hchild hleads hfinal
  refine h.child directory name inode (fun hchanged ↦ ?_) hchild
  rw [hplain directory name links final hchanged hleads] at hfinal
  cases hfinal

end LineMigration.FileSystem
