import LineMigration.Proofs.Migration.Success

/-!
# What a path reads after a migration

The path of the scratch file may lead anywhere, over links or by another name of a file. A
migration that succeeds writes the edited lines to where it leads and then moves what has its name
over the file; so paths of the file resolve to the node that was written, or to nothing
(`Swapped.tookPlace`). If the scratch path leads neither to the file itself nor to a device, they
read the edited lines, and the scratch file has no name any more. If it does, the file was emptied
before it was read, or the device keeps nothing, and there is nothing left to read
(`migrate_ok_reads`).
-/

namespace LineMigration

open LineMigration.Stream

/-- A path leads neither to the node nor to a device. -/
def FileSystem.Apart (fs : FileSystem) (path : Text) (source : Inode) : Prop :=
  ∀ target, fs.resolve path = .ok target →
    target ≠ source ∧ ∀ capacity taken, fs.node? target ≠ some (.device capacity taken)

namespace Migration

open LineMigration.FileSystem

variable {table : Table} {observer : Observer} {fs created written : FileSystem}
  {directory source target : Inode} {name : Name} {upper : List Name}
  {file scratch path asked : Text} {lines : List Text} {result : Result} {run : Run}

/-! ## Where the names lead -/

/-- Once the scratch file is written, the name of the file leads to the file, and the name beside
it to what was written. A path of the file comes to the one name over so few links that it could
have gone on by the other. -/
structure Ways (written : FileSystem) (asked : Text) (directory : Inode) (name : Name)
    (source target : Inode) (before : List Name) (links more : Nat) : Prop where
  wellFormed : written.WellFormed
  checked : checkPath asked = .ok ()
  names : (Route.ofPath asked).names = before ++ [name]
  slash : (Route.ofPath asked).slash = false
  leads : written.Leads (startOf written.workingDirectory asked) before links directory
  file : ∃ others, written.Leads directory [name] others source
  scratch : written.Leads directory [name ++ Path.scratchEnding] more target
  bound : links + more ≤ maxLinks
  sourcePlain : written.isDirectoryNode source = false
  targetPlain : written.isDirectoryNode target = false

theorem exists_ways_of_created (bytes : Bytes) (hfs : fs.WellFormed)
    (hsite : Site fs file scratch directory name source)
    (habsolute : fs.absolute path = .ok file) (hscratch : Path.sibling file = some scratch)
    (hfile : fs.resolve file = .ok source) (hform : IsAbsoluteForm fs asked file upper)
    (hasked : fs.resolve asked = .ok source) (hcheck : checkPath scratch = .ok ())
    (hcreated : Created fs scratch created target) :
    ∃ before links more, Ways (created.append target bytes) asked directory name source target
      before links more := by
  obtain ⟨before, behind, links, hnames, hbehindNames, hbefore, hbehind⟩ :=
    hsite.exists_ways hfs habsolute hscratch hfile hform hasked
  obtain ⟨hslash, -⟩ := nameOf?_of_resolve hfs hasked hsite.plain
  obtain ⟨others, hleads⟩ := hsite.leads
  have hwrites := hcreated.writesTo hfs bytes
  have hworking := hwrites.sameDirectories.workingDirectory
  have hresolve : (created.append target bytes).resolve scratch = .ok target :=
    resolve_carry (hcreated.wellFormed hfs) hwrites.wellFormed
      (sameOutline_append created target bytes).carries rfl trivial (hcreated.resolve hfs hcheck)
  have hway : (created.append target bytes).Leads
      (startOf (created.append target bytes).workingDirectory scratch) behind links directory := by
    rw [hworking]
    exact hbehind.carry hwrites.carries trivial
  obtain ⟨-, more, hle, hmore⟩ := (resolve_eq_ok_iff_of_leads hwrites.wellFormed hbehindNames hway
    hsite.scratchSlash).1 hresolve
  refine ⟨before, links, more, hwrites.wellFormed, checkPath_of_resolve hasked, hnames, hslash, ?_,
    ⟨others, hleads.carry hwrites.carries trivial⟩, hmore, hle, hwrites.back.plain hsite.plain,
    hwrites.back.plain hcreated.plain⟩
  rw [hworking]
  exact hbefore.carry hwrites.carries trivial

/-- What was written has taken the place of the file: directories are where they were, and paths of
the file resolve to what was written or to nothing. If it is another node than the file was, they do
resolve to it, and the scratch path names nothing. -/
structure TookPlace (written after : FileSystem) (asked scratch : Text) (source target : Inode) :
    Prop where
  wellFormed : after.WellFormed
  sameDirectories : SameDirectories written after
  node : after.node? target = written.node? target
  only : ∀ inode, after.resolve asked = .ok inode → inode = target
  resolve : source ≠ target → after.resolve asked = .ok target
  scratch : source ≠ target → after.entryAt? scratch = none

namespace Ways

variable {before : List Name} {links more : Nat} {moved : Inode}
  (h : Ways written asked directory name source target before links more)
include h

/-- Where both names stand for one node, the file is what was written, and no move is needed. -/
theorem tookPlace_of_same
    (hscratch : written.lookup directory (name ++ Path.scratchEnding) = some moved)
    (hname : written.lookup directory name = some moved) :
    TookPlace written written asked scratch source target := by
  obtain ⟨others, hfile⟩ := h.file
  have hchild := (h.wellFormed.child_of_lookup hname).trans
    (h.wellFormed.child_of_lookup hscratch).symm
  obtain ⟨-, rfl⟩ := (leads_of_child_eq hchild hfile).unique h.scratch
  refine ⟨h.wellFormed, .refl written, rfl, fun inode hinode ↦ ?_, fun hne ↦ absurd rfl hne,
    fun hne ↦ absurd rfl hne⟩
  obtain ⟨-, _, -, hreached⟩ :=
    (resolve_eq_ok_iff_of_leads h.wellFormed h.names h.leads h.slash).1 hinode
  exact (hreached.unique hfile).2

/-- Moving what has the scratch name over the file puts what was written in its place. -/
theorem tookPlace_of_move
    (hmove : PlainMove written (directory, name ++ Path.scratchEnding) (directory, name) moved)
    (hscratch : written.nameOf? scratch = some (directory, name ++ Path.scratchEnding)) :
    TookPlace written
      (written.relocate (directory, name ++ Path.scratchEnding) (directory, name) moved) asked
      scratch source target := by
  obtain ⟨others, hfile⟩ := h.file
  have hsame := hmove.sameDirectories_of_leads h.scratch h.targetPlain hfile h.sourcePlain
  refine ⟨hmove.wellFormed_after, hsame, ?_, fun inode hinode ↦ ?_, fun hne ↦ ?_, fun _ ↦ ?_⟩
  · exact node?_eq_of_face (hmove.sameFaces.view target) h.targetPlain
  · obtain ⟨_, hreached⟩ := hmove.leads_of_resolve hsame h.names h.slash h.leads hinode
    exact (hreached.unique h.scratch).2
  · -- The name of the file led to another node, so the way to what was written did not use it.
    refine hmove.resolve_of_leads hsame h.names h.slash h.leads h.checked h.bound h.scratch
      fun _ reached hreached ↦ ?_
    obtain ⟨-, rfl⟩ := hreached.unique hfile
    exact ⟨hne, h.sourcePlain⟩
  · have hnameOf := hsame.nameOf?_eq h.wellFormed hmove.wellFormed_after scratch
    simp [entryAt?, hnameOf, hscratch, hmove.lookup_after]

end Ways

/-- A migration that succeeds has put what it wrote in the place of the file. -/
theorem Swapped.tookPlace (hfs : fs.WellFormed)
    (hsite : Site fs file scratch directory name source)
    (habsolute : fs.absolute path = .ok file) (hscratch : Path.sibling file = some scratch)
    (hfile : fs.resolve file = .ok source) (hform : IsAbsoluteForm fs asked file upper)
    (hasked : fs.resolve asked = .ok source)
    (h : Swapped table fs source file scratch directory name run result created written target
      lines) : TookPlace written run.fileSystem asked scratch source target := by
  obtain ⟨hcheck, hcreated⟩ := created_of_create h.create
  obtain ⟨before, links, more, hways⟩ := exists_ways_of_created (editedBytes table lines) hfs hsite
    habsolute hscratch hfile hform hasked hcheck hcreated
  have hwrites := hcreated.writesTo hfs (editedBytes table lines)
  rw [← h.filled] at hways hwrites
  obtain ⟨moved, victim, hmoved, hplain, hvictim, hafter⟩ := h.moves
  rw [hafter]
  by_cases heq : moved = victim
  · subst heq
    rw [if_pos rfl]
    exact hways.tookPlace_of_same hmoved hvictim
  · rw [if_neg heq]
    have hname : Path.IsEntryName name := hwrites.wellFormed.isEntryName hvictim
    have hmove :
        PlainMove written (directory, name ++ Path.scratchEnding) (directory, name) moved :=
      ⟨hwrites.wellFormed, hmoved, hplain, hname, isDirectoryNode_of_lookup hmoved,
        by simp [Path.scratchEnding]⟩
    refine hways.tookPlace_of_move hmove ?_
    exact (hwrites.sameDirectories.nameOf?_eq hfs hwrites.wellFormed scratch).trans
      hsite.scratchName

/-! ## What is read there -/

/-- If the scratch path leads neither to the file nor to a device, paths of the file read its
lines as they are edited, and the scratch file has no name any more. -/
theorem Swapped.reads_of_apart (hfs : fs.WellFormed)
    (hplain : fs.isDirectoryNode source = false) (hfile : fs.resolve file = .ok source)
    (h : Swapped table fs source file scratch directory name run result created written target
      lines) (htook : TookPlace written run.fileSystem asked scratch source target)
    (hapart : fs.Apart scratch source) :
    ∃ text, fs.contents source = Text.utf8 text ∧ lines = Text.lines text ∧
      run.fileSystem.read? asked = some (editedBytes table (Text.lines text)) ∧
      run.fileSystem.entryAt? scratch = none := by
  obtain ⟨-, hcreated⟩ := created_of_create h.create
  -- What creating empties is what the scratch path led to, and a new file is none of the old ones.
  have hother : source ≠ target ∧ ∀ capacity taken,
      fs.node? target ≠ some (.device capacity taken) := by
    cases hcreated with
    | emptied hresolve =>
      obtain ⟨hne, hdevice⟩ := hapart target hresolve
      exact ⟨hne.symm, hdevice⟩
    | new =>
      refine ⟨fun heq ↦ ?_, by simp [node?_length]⟩
      exact absurd (lt_of_resolve hfs hfile) (by simp [heq])
  obtain ⟨hne, hdevice⟩ := hother
  have hcontents : created.contents source = fs.contents source :=
    hcreated.touchesOnly.contents_eq hne hplain
  obtain ⟨text, htext, rfl⟩ := Reader.exists_text_of_lines rfl h.lines
  have hnode : written.node? target = some (.file (editedBytes table (Text.lines text))) := by
    rw [h.filled, append, node?_modify_same, hcreated.node?_target hfs hdevice]
    rfl
  refine ⟨text, ?_, rfl, ?_, htook.scratch hne⟩
  · simpa [Reader.ofBytes, hcontents] using htext
  · simp [read?, htook.resolve hne, htook.node, hnode]

/-- If the scratch path leads to the file or to a device, paths of the file read nothing. -/
theorem Swapped.contents_of_not_apart (hfs : fs.WellFormed)
    (h : Swapped table fs source file scratch directory name run result created written target
      lines) (htook : TookPlace written run.fileSystem asked scratch source target)
    (hapart : ¬ fs.Apart scratch source) {inode : Inode}
    (hinode : run.fileSystem.resolve asked = .ok inode) : run.fileSystem.contents inode = [] := by
  obtain ⟨-, hcreated⟩ := created_of_create h.create
  obtain rfl := htook.only inode hinode
  have hcontents : run.fileSystem.contents inode = written.contents inode := by
    rw [contents, htook.node, contents]
  rw [hcontents, h.filled]
  unfold FileSystem.Apart at hapart
  push Not at hapart
  obtain ⟨found, hfound, hdevice⟩ := hapart
  obtain ⟨rfl, rfl⟩ := hcreated.target_of_resolve hfs hfound
  by_cases heq : inode = source
  · -- The file was emptied, so no line was read and none was written.
    subst heq
    have hnil : linesOf (fs.modify inode .truncated) inode = [] :=
      linesOf_eq_nil hcreated.contents_target
    obtain rfl : lines = [] := List.map_eq_nil_iff.1 (h.lines.symm.trans hnil)
    rw [show editedBytes table [] = [] from rfl, append_nil]
    exact hcreated.contents_target
  · obtain ⟨capacity, taken, hnode⟩ := hdevice heq
    simp [contents, append, hnode, Node.truncated, Node.extended, Node.contents]

/-- A migration that succeeds was one of a file. If the path of the scratch file leads neither to
this file nor to a device, the given path and its absolute form, where they led to the file, now
read its lines as they are edited, and the scratch file has no name any more. Otherwise they read
nothing. -/
theorem migrate_ok_reads (hfs : fs.WellFormed)
    (hok : (migrate table false observer fs path).outcome = .ok result) :
    let after := (migrate table false observer fs path).fileSystem
    ∃ file scratch source, fs.absolute path = .ok file ∧ Path.sibling file = some scratch ∧
      fs.resolve file = .ok source ∧
      ∀ asked, asked = path ∨ asked = file → fs.resolve asked = .ok source →
        (fs.Apart scratch source → ∃ text, fs.contents source = Text.utf8 text ∧
          after.read? asked = some (Text.utf8 (editedLines table (Text.lines text))) ∧
          after.entryAt? scratch = none) ∧
        (¬ fs.Apart scratch source →
          ∀ inode, after.resolve asked = .ok inode → after.contents inode = []) := by
  obtain ⟨file, scratch, source, directory, name, created, written, target, lines, habsolute,
    hscratch, hfile, hsite, hswapped⟩ := swapped_of_ok hfs hok
  refine ⟨file, scratch, source, habsolute, hscratch, hfile, fun asked hwhich hasked ↦ ?_⟩
  obtain ⟨upper, hform⟩ : ∃ upper, IsAbsoluteForm fs asked file upper := by
    rcases hwhich with rfl | rfl
    · exact isAbsoluteForm_of_absolute hfs habsolute
    · exact ⟨[], isAbsoluteForm_self hfs habsolute⟩
  have htook := hswapped.tookPlace hfs hsite habsolute hscratch hfile hform hasked
  refine ⟨fun hapart ↦ ?_, fun hapart inode hinode ↦
    hswapped.contents_of_not_apart hfs htook hapart hinode⟩
  obtain ⟨text, htext, -, hread, hgone⟩ :=
    hswapped.reads_of_apart hfs hsite.plain hfile htook hapart
  exact ⟨text, htext, hread, hgone⟩

/-- The scratch path is a link to another file. The file becomes that link, and the other one holds
the edited line, so the path reads it. -/
theorem migrate_ok_reads_link :
    let fs : FileSystem :=
      ⟨[.directory [(['f'], 1), (['f', '-', 'n', 'e', 'w'], 2), (['g'], 3)] root, .file [97, 10],
        .link ['g'], .file [122, 122]], root⟩
    let scratch := ['/', 'f', '-', 'n', 'e', 'w']
    let run := migrate [⟨['a'], ['b']⟩] false .silent fs ['f']
    fs.WellFormed ∧ fs.Apart scratch 1 ∧
      run.outcome = .ok ⟨['/', 'f'], [⟨0, ['a'], ['b']⟩], true⟩ ∧
      (∃ text, [97, 10] = Text.utf8 text ∧ run.fileSystem.read? ['f'] =
        some (Text.utf8 (editedLines [⟨['a'], ['b']⟩] (Text.lines text)))) ∧
      run.fileSystem.entryAt? scratch = none := by
  intro fs scratch run
  have hfs : fs.WellFormed := by decide
  have hok : run.outcome = .ok ⟨['/', 'f'], [⟨0, ['a'], ['b']⟩], true⟩ := rfl
  have hapart : fs.Apart scratch 1 := by
    intro target htarget
    cases htarget.symm.trans (show fs.resolve scratch = .ok 3 from rfl)
    exact ⟨by decide, fun _ _ hnode ↦ by cases hnode⟩
  obtain ⟨file, beside, source, habsolute, hscratch, hfile, hasked⟩ := migrate_ok_reads hfs hok
  obtain rfl : ['/', 'f'] = file := Except.ok.inj habsolute
  obtain rfl : scratch = beside := Option.some.inj hscratch
  obtain rfl : 1 = source := Except.ok.inj hfile
  obtain ⟨text, htext, hread, hgone⟩ := (hasked ['f'] (.inl rfl) rfl).1 hapart
  exact ⟨hfs, hapart, hok, ⟨text, htext, hread⟩, hgone⟩

/-- Where the scratch path is another name of the file, a migration succeeds, the path reads
nothing any more, and the scratch path still names the file. -/
theorem migrate_empties_hard_link :
    let fs : FileSystem :=
      ⟨[.directory [(['f'], 1), (['f', '-', 'n', 'e', 'w'], 1)] root, .file [97, 10]], root⟩
    let run := migrate [⟨['a'], ['b']⟩] false .silent fs ['f']
    fs.WellFormed ∧ fs.read? ['f'] = some (Text.utf8 ['a', '\n']) ∧
      run.outcome = .ok ⟨['/', 'f'], [], true⟩ ∧ run.fileSystem.read? ['f'] = some [] ∧
      Text.utf8 (editedLines [⟨['a'], ['b']⟩] (Text.lines ['a', '\n'])) ≠ [] ∧
      run.fileSystem.entryAt? ['/', 'f', '-', 'n', 'e', 'w'] = some 1 :=
  ⟨by decide, rfl, rfl, rfl, by decide, rfl⟩

end Migration

end LineMigration
