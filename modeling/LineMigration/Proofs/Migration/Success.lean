import LineMigration.Proofs.FileSystem.Move
import LineMigration.Proofs.Migration.Failure
import LineMigration.Proofs.Text.Line

/-!
# Successful migrations

A migration that succeeds where the scratch file is a file of its own has put the edited lines
under the name of the file and taken the name of the scratch file away; every other name shows
what it showed. `Replaced` says this of two trees, `replaced_of_ok` of a migration, and
`migrate_ok_tree` of the path that it was given.
-/

namespace LineMigration.Migration

open LineMigration.Stream LineMigration.FileSystem

variable {table : Table} {observer : Observer} {fs created after : FileSystem}
  {directory source target : Inode} {name : Name} {file scratch path : Text} {old bytes : Bytes}
  {result : Result}

/-- The tree `after` is `fs` with a new file under the name of the old one, and without the name
of the scratch file. -/
structure Replaced (fs after : FileSystem) (directory : Inode) (name : Name) (source : Inode)
    (bytes : Bytes) : Prop where
  wellFormed : after.WellFormed
  sameDirectories : SameDirectories fs after
  file : ∃ inode, SoleFile after directory name inode bytes
  scratch : after.lookup directory (name ++ Path.scratchEnding) = none
  old : after.node? source = fs.node? source
  others : UnchangedBut (fun asked askedName ↦
    asked = directory ∧ askedName = name ∨
      asked = directory ∧ askedName = name ++ Path.scratchEnding) fs after

/-- A file that is the sole one at the scratch path is not the file beside it, unless it was
before. -/
theorem source_ne_target (hfs : fs.WellFormed) (hcreated : Created fs scratch created target)
    (hname : fs.nameOf? scratch = some (directory, name))
    (hsole : SoleFile created directory name target bytes) (hfile : fs.resolve file = .ok source)
    (hother : fs.entryAt? scratch ≠ some source) : source ≠ target := by
  rintro rfl
  cases hcreated with
  | emptied =>
    apply hother
    have hlookup := hsole.lookup
    rw [(sameOutline_truncate fs source).lookup_eq] at hlookup
    simpa [entryAt?, hname] using hlookup
  | new => exact Nat.lt_irrefl _ (lt_of_resolve hfs hfile)

/-- Moving the full scratch file over the file replaces it. -/
theorem replaced_of_relocate (hfs : fs.WellFormed)
    (hsite : Site fs file scratch directory name source)
    (hcreated : Created fs scratch created target) (hne : source ≠ target)
    (hsole : SoleFile created directory (name ++ Path.scratchEnding) target []) :
    Replaced fs ((created.append target bytes).relocate (directory, name ++ Path.scratchEnding)
      (directory, name) target) directory name source bytes := by
  have hwrites := hcreated.writesTo hfs bytes
  have hfull : SoleFile (created.append target bytes) directory (name ++ Path.scratchEnding) target
      bytes := hsole.append bytes
  generalize created.append target bytes = written at hwrites hfull
  obtain ⟨links, hleads⟩ := hsite.leads
  obtain ⟨victim, hlookup, -, -⟩ := entry_of_leads hfs hleads hsite.plain
  have hname : Path.IsEntryName name := hfs.isEntryName hlookup
  have hdirectory : written.isDirectoryNode directory = true :=
    isDirectoryNode_of_lookup hfull.lookup
  have hplain : written.isDirectoryNode target = false :=
    isDirectoryNode_eq_false hfull.node rfl
  have hdiffer : ¬ (directory = directory ∧ name = name ++ Path.scratchEnding) := by
    simp [Path.scratchEnding]
  have hmove : PlainMove written (directory, name ++ Path.scratchEnding) (directory, name) target :=
    ⟨hwrites.wellFormed, hfull.lookup, hplain, hname, hdirectory, by simp [Path.scratchEnding]⟩
  -- Both names lead to plain nodes, so no walk to a directory goes through them.
  have hlast : written.Leads directory [name ++ Path.scratchEnding] 0 target :=
    leads_of_lookup hwrites.wellFormed hfull.lookup (by simp [hfull.node])
  have hcarried : written.Leads directory [name] links source :=
    hleads.carry hwrites.carries trivial
  refine ⟨hmove.wellFormed_after, hwrites.sameDirectories.trans
      (hmove.sameDirectories_of_leads hlast hplain hcarried (hwrites.back.plain hsite.plain)),
    ⟨target, hfull.relocate hdirectory hdiffer⟩, ?_, ?_, ?_⟩
  · rw [lookup_relocate hplain hdirectory hdirectory, if_pos ⟨rfl, rfl⟩]
  · exact (node?_eq_of_face ((sameFaces_relocate hplain).view source)
      (hwrites.back.plain hsite.plain)).trans (hwrites.touches.node?_eq hne hsite.plain)
  · refine ((hfull.unchangedBut hwrites.touches).trans
      (unchangedBut_relocate hplain hdirectory hdirectory)).weaken ?_
    intro asked askedName h
    rcases h with h | h | h
    · exact Or.inr h
    · exact Or.inr h
    · exact Or.inl h

/-- A migration that succeeds has read the file as lines of text and replaced it. -/
theorem replaced_of_ok (hfs : fs.WellFormed) (habsolute : fs.absolute path = .ok file)
    (hscratch : Path.sibling file = some scratch)
    (hlone : fs.entryAt? scratch = none ∨ fs.IsLoneFile scratch)
    (hother : ∀ source, fs.resolve file = .ok source → fs.entryAt? scratch ≠ some source)
    (hok : (migrate table false observer fs path).outcome = .ok result) :
    ∃ directory name source text, fs.resolve file = .ok source ∧
      Site fs file scratch directory name source ∧ fs.contents source = Text.utf8 text ∧
      Replaced fs (migrate table false observer fs path).fileSystem directory name source
        (editedBytes table (Text.lines text)) ∧
      result = ⟨file, changesFrom table 0 (Text.lines text), true⟩ := by
  rcases ended_of_migrate hfs habsolute hscratch with ⟨_, hrun, -⟩ |
    ⟨source, directory, name, hfile, hsite, hended⟩
  · rw [hrun] at hok
    cases hok
  obtain ⟨created, written, target, before, hswapped⟩ := hended.of_ok hfs hsite hfile hok
  obtain ⟨moved, victim, hmoved, -, hvictim, hafter⟩ := hswapped.moves
  obtain ⟨hcheck, hcreated⟩ := created_of_create hswapped.create
  have hsole : SoleFile created directory (name ++ Path.scratchEnding) target [] :=
    hcreated.soleFile hfs hcheck hsite.scratchName hsite.scratchSlash hlone
  have hne : source ≠ target := source_ne_target hfs hcreated hsite.scratchName hsole hfile
    (hother source hfile)
  have hcontents : created.contents source = fs.contents source :=
    hcreated.touchesOnly.contents_eq hne hsite.plain
  obtain ⟨text, htext, rfl⟩ := Reader.exists_text_of_lines rfl hswapped.lines
  have hfull : SoleFile written directory (name ++ Path.scratchEnding) target
      (editedBytes table (Text.lines text)) := hswapped.filled ▸ hsole.append _
  obtain ⟨htarget, hdiffer⟩ := hfull.moved hmoved hvictim
  rw [if_neg hdiffer, htarget, hswapped.filled] at hafter
  refine ⟨directory, name, source, text, hfile, hsite, ?_, ?_, hswapped.report⟩
  · simpa [Reader.ofBytes, hcontents] using htext
  · rw [hafter]
    exact replaced_of_relocate hfs hsite hcreated hne hsole

/-- A migration that succeeds, beside nothing or a file without another name, has put the lines of
the file as they are edited under the name of the path, taken the name of the scratch file away,
and left what all other names show; the file that the path read before keeps its content. -/
theorem migrate_ok_tree (hfs : fs.WellFormed) (habsolute : fs.absolute path = .ok file)
    (hscratch : Path.sibling file = some scratch) (hold : fs.read? path = some old)
    (hlone : fs.entryAt? scratch = none ∨ fs.IsLoneFile scratch)
    (hother : ∀ source, fs.resolve path = .ok source → fs.entryAt? scratch ≠ some source)
    (hok : (migrate table false observer fs path).outcome = .ok result) :
    let after := (migrate table false observer fs path).fileSystem
    ∃ text, old = Text.utf8 text ∧
      (∃ inode, after.entryAt? path = some inode ∧
        after.node? inode = some (.file (Text.utf8 (editedLines table (Text.lines text))))) ∧
      after.entryAt? scratch = none ∧
      (∀ source, fs.resolve path = .ok source → after.node? source = some (.file old)) ∧
      UnchangedBut (fun directory name ↦ fs.nameOf? path = some (directory, name) ∨
        fs.nameOf? scratch = some (directory, name)) fs after ∧
      result = ⟨file, changesFrom table 0 (Text.lines text), true⟩ := by
  obtain ⟨source, hpath, hnode⟩ := node?_of_read? hold
  obtain ⟨upper, hform⟩ := isAbsoluteForm_of_absolute hfs habsolute
  obtain ⟨directory, name, found, text, hfile, hsite, htext, hreplaced, hresult⟩ :=
    replaced_of_ok hfs habsolute hscratch hlone
      (fun found hfile ↦ hform.resolve_unique hfs hpath hfile ▸ hother source hpath) hok
  obtain rfl : source = found := hform.resolve_unique hfs hpath hfile
  obtain ⟨-, _, _, hname, -⟩ := nameOf?_of_resolve hfs hpath hsite.plain
  have hfilename := hform.nameOf?_eq hfs hfile hsite.plain hname
  rw [hsite.fileName] at hfilename
  cases hfilename
  have hnameOf := hreplaced.sameDirectories.nameOf?_eq hfs hreplaced.wellFormed
  obtain ⟨inode, hsole⟩ := hreplaced.file
  refine ⟨text, ?_, ⟨inode, ?_, hsole.node⟩, ?_, ?_, ?_, hresult⟩
  · rw [← htext, contents, hnode]
    rfl
  · simp [entryAt?, hnameOf, hname, hsole.lookup]
  · simp [entryAt?, hnameOf, hsite.scratchName, hreplaced.scratch]
  · intro other hother
    cases hpath.symm.trans hother
    exact hreplaced.old.trans hnode
  · refine hreplaced.others.weaken ?_
    intro asked askedName h
    rcases h with ⟨rfl, rfl⟩ | ⟨rfl, rfl⟩
    · exact Or.inl hname
    · exact Or.inr hsite.scratchName

/-- A path that is a symbolic link to the file, beside the leftovers of another run: the link gives
way to a file, and the file that it led to keeps its content. -/
theorem migrate_ok_tree_link :
    let fs : FileSystem :=
      ⟨[.directory [(['l'], 1), (['f'], 2), (['l', '-', 'n', 'e', 'w'], 3)] root, .link ['f'],
        .file [97, 10], .file [122]], root⟩
    let scratch := ['/', 'l', '-', 'n', 'e', 'w']
    let run := migrate [⟨['a'], ['b']⟩] false .silent fs ['l']
    fs.WellFormed ∧ run.outcome = .ok ⟨['/', 'l'], [⟨0, ['a'], ['b']⟩], true⟩ ∧
      (∃ inode text, run.fileSystem.entryAt? ['l'] = some inode ∧ [97, 10] = Text.utf8 text ∧
        run.fileSystem.node? inode =
          some (.file (Text.utf8 (editedLines [⟨['a'], ['b']⟩] (Text.lines text))))) ∧
      run.fileSystem.entryAt? scratch = none ∧
      run.fileSystem.node? 2 = some (.file [97, 10]) := by
  intro fs scratch run
  have hfs : fs.WellFormed := by decide
  have hok : run.outcome = .ok ⟨['/', 'l'], [⟨0, ['a'], ['b']⟩], true⟩ := rfl
  have hlone : fs.IsLoneFile scratch := ⟨3, [122], rfl, rfl, rfl⟩
  have hother : ∀ source, fs.resolve ['l'] = .ok source → fs.entryAt? scratch ≠ some source := by
    intro source hsource
    cases hsource.symm.trans (show fs.resolve ['l'] = .ok 2 from rfl)
    decide
  obtain ⟨text, htext, ⟨inode, hentry, hnode⟩, hgone, hkept, -⟩ :=
    migrate_ok_tree hfs (show fs.absolute ['l'] = .ok ['/', 'l'] from rfl)
      (show Path.sibling ['/', 'l'] = some scratch from rfl)
      (show fs.read? ['l'] = some [97, 10] from rfl) (Or.inr hlone) hother hok
  exact ⟨hfs, hok, ⟨inode, text, hentry, htext, hnode⟩, hgone, hkept 2 rfl⟩

end LineMigration.Migration
