import LineMigration.Proofs.Migration.Leftover

/-!
# Histories of migrations

Migrations of one path follow each other, each with a table and an observer of its own, some of
them dry runs, and some fail. Those that replace the file are the `replacing` ones. Whatever
happened, the path stays `Ready` (`Ready.of_replaces`, `Leftover.step`), and the tree is the one
that the replacing calls alone would have left, but for a leftover (`leftover_treeAfter`). So the
path holds its first bytes, rewritten by these calls in their order, and no call depends on those
that failed (`history_atomic`).
-/

namespace LineMigration.Migration

open LineMigration.Stream LineMigration.FileSystem

variable {table : Table} {observer : Observer} {fs other : FileSystem} {file scratch path : Text}
  {bytes old : Bytes} {result : Result}

/-! ## Calls -/

/-- A migration of a path: its table, whether it is a dry run, and its observer. -/
structure Call where
  table : Table
  dryRun : Bool
  observer : Observer

namespace Call

/-- The run of a call. -/
def run (call : Call) (fs : FileSystem) (path : Text) : Run :=
  migrate call.table call.dryRun call.observer fs path

/-- A call that succeeds and is no dry run replaces the file. -/
def replaces (call : Call) (fs : FileSystem) (path : Text) : Bool :=
  (call.run fs path).outcome.isOk && !call.dryRun

/-- The bytes of a text, its lines rewritten once by the table of a call. -/
def rewritten? (call : Call) (bytes : Bytes) : Option Bytes :=
  (Utf8.decode bytes).map fun text ↦ Text.utf8 (editedLines call.table (Text.lines text))

end Call

/-- The tree after calls for a path, one after another. -/
def treeAfter (path : Text) : FileSystem → List Call → FileSystem
  | fs, [] => fs
  | fs, call :: rest => treeAfter path (call.run fs path).fileSystem rest

/-- Those of the calls for a path that replace the file. -/
def replacing (path : Text) : FileSystem → List Call → List Call
  | _, [] => []
  | fs, call :: rest =>
    let later := replacing path (call.run fs path).fileSystem rest
    if call.replaces fs path then call :: later else later

variable {call : Call}

theorem Call.replaces_eq_true_iff :
    call.replaces fs path = true ↔
      (∃ result, (call.run fs path).outcome = .ok result) ∧ call.dryRun = false := by
  unfold replaces
  cases (call.run fs path).outcome <;> simp [Except.isOk, Except.toBool]

/-! ## A call that replaces the file -/

/-- A migration that succeeds changes no way up to the root. -/
theorem climbsAs_of_ok (hfs : fs.WellFormed)
    (hok : (migrate table false observer fs path).outcome = .ok result) :
    ClimbsAs fs (migrate table false observer fs path).fileSystem := by
  obtain ⟨file, scratch, source, directory, name, created, written, target, before, -, -, -, hsite,
    hswapped⟩ := swapped_of_ok hfs hok
  obtain ⟨moved, victim, hmoved, hplain, hvictim, hafter⟩ := hswapped.moves
  have hcreated := (created_of_create hswapped.create).2
  have hwrites := hcreated.writesTo hfs (editedBytes table before)
  have hclimbs : ClimbsAs fs written :=
    hswapped.filled ▸ hcreated.climbsAs_append (editedBytes table before)
  rw [← hswapped.filled] at hwrites
  rw [hafter]
  split
  · exact hclimbs
  · -- Neither of the two names of the move stands for a directory.
    obtain ⟨links, hleads⟩ := hsite.leads
    obtain ⟨entry, hlookup, hentry, -⟩ := entry_of_leads hfs hleads hsite.plain
    refine hclimbs.trans (climbsAs_relocate hwrites.wellFormed hmoved hplain
      (hfs.isEntryName hlookup) fun found hfound ↦ ?_)
    cases hfound.symm.trans (hwrites.touches.lookup_of_some hlookup)
    exact hwrites.back.plain hentry

/-- A call that replaces the file has found text in it, and leaves this text rewritten. -/
theorem Ready.of_replaces (h : Ready fs path bytes) (hreplaces : call.replaces fs path = true) :
    ∃ next, call.rewritten? bytes = some next ∧ Ready (call.run fs path).fileSystem path next := by
  obtain ⟨table, dryRun, observer⟩ := call
  obtain ⟨⟨result, hok⟩, hdry⟩ := Call.replaces_eq_true_iff.1 hreplaces
  obtain rfl : dryRun = false := hdry
  simp only [Call.run, Call.rewritten?] at hok ⊢
  have hfs := h.wellFormed
  obtain ⟨file, scratch, source, _, _, _, _, _, _, habsolute, hscratch, hfile, hbeside, -⟩ :=
    swapped_of_ok hfs hok
  obtain ⟨directory, name, found, text, hfound, hsite, htext, hreplaced, -⟩ :=
    replaced_of_ok hfs habsolute hscratch (h.scratch file scratch habsolute hscratch)
      (fun found hfound ↦ by
        cases hfile.symm.trans hfound
        exact h.entryAt?_scratch_ne habsolute hfile hscratch hbeside) hok
  cases hfile.symm.trans hfound
  obtain ⟨hname, -, hnode, hresolve⟩ := h.name_of_site habsolute hfile hsite
  obtain ⟨hslash, -⟩ := nameOf?_of_resolve hfs hresolve hsite.plain
  have hbytes : bytes = Text.utf8 text := by
    rw [← htext, contents, hnode]
    rfl
  have hafter := hreplaced.wellFormed
  have hnameOf := hreplaced.sameDirectories.nameOf?_eq hfs hafter
  have hpath := (hnameOf path).trans hname
  obtain ⟨target, hsole⟩ := hreplaced.file
  refine ⟨editedBytes table (Text.lines text), by simp [hbytes, editedBytes], hafter,
    ⟨?_, target, ?_, hsole.node⟩, fun asked beside hasked hbeside ↦ .inl ?_⟩
  · exact hsole.read?_eq hafter (checkPath_of_resolve hresolve) hpath hslash
  · simp [entryAt?, hpath, hsole.lookup]
  · -- The path has the absolute form that it had, and the scratch file has gone.
    cases ((climbsAs_of_ok hfs hok).absolute hfs habsolute).symm.trans hasked
    cases hscratch.symm.trans hbeside
    simp [entryAt?, hnameOf, hsite.scratchName, hreplaced.scratch]

/-! ## A call that does not -/

/-- A call that does not replace the file leaves at most a scratch file. -/
theorem leftover_of_not_replaces (h : call.replaces fs path = false) :
    Leftover path fs (call.run fs path).fileSystem := by
  obtain ⟨table, dryRun, observer⟩ := call
  cases dryRun with
  | true =>
    rw [Call.run, fileSystem_migrate_dryRun]
    exact .none
  | false =>
    cases houtcome : (migrate table false observer fs path).outcome with
    | error failure => exact leftover_of_error houtcome
    | ok result =>
      have hreplaces : Call.replaces ⟨table, false, observer⟩ fs path = true :=
        Call.replaces_eq_true_iff.2 ⟨⟨result, houtcome⟩, rfl⟩
      rw [hreplaces] at h
      cases h

namespace Leftover

/-- A leftover does not decide whether a call replaces the file. -/
theorem replaces_eq (h : Leftover path fs other) (hready : Ready fs path bytes) (call : Call) :
    call.replaces other path = call.replaces fs path := by
  simp only [Call.replaces, Call.run, (h.run_eq hready call.table call.dryRun call.observer).1]

/-- What a leftover is there before the file is replaced is not there after. -/
theorem fileSystem_eq (h : Leftover path fs other) (hready : Ready fs path bytes)
    (hreplaces : call.replaces other path = true) :
    (call.run other path).fileSystem = (call.run fs path).fileSystem := by
  have hdry := (Call.replaces_eq_true_iff.1 hreplaces).2
  rw [Call.run, (h.run_eq hready call.table call.dryRun call.observer).2.2 hdry, Call.run]

/-- A call that does not replace the file leaves at most the one leftover. -/
theorem step (h : Leftover path fs other) (hready : Ready fs path bytes)
    (hkeeps : call.replaces other path = false) :
    Leftover path fs (call.run other path).fileSystem := by
  have hclean := leftover_of_not_replaces ((h.replaces_eq hready call).symm.trans hkeeps)
  obtain ⟨-, -, hrun⟩ := h.run_eq hready call.table call.dryRun call.observer
  obtain ⟨table, dryRun, observer⟩ := call
  cases dryRun with
  | true => rwa [Call.run, fileSystem_migrate_dryRun]
  | false => rwa [Call.run, hrun rfl]

/-- A leftover does not show in what the path reads after a call. -/
theorem read?_run (h : Leftover path fs other) (hready : Ready fs path bytes) (call : Call) :
    (call.run other path).fileSystem.read? path = (call.run fs path).fileSystem.read? path := by
  cases hreplaces : call.replaces other path with
  | true => rw [h.fileSystem_eq hready hreplaces]
  | false =>
    have hclean := leftover_of_not_replaces ((h.replaces_eq hready call).symm.trans hreplaces)
    exact ((h.step hready hreplaces).ready hready).file.read.trans
      (hclean.ready hready).file.read.symm

end Leftover

/-! ## Calls one after another -/

/-- The calls that replace the file do so without the others too. They leave the tree that all
calls leave, but for a leftover, and a path that is ready. -/
theorem leftover_treeAfter (h : Leftover path fs other) (hready : Ready fs path bytes)
    (calls : List Call) :
    replacing path fs (replacing path other calls) = replacing path other calls ∧
      Leftover path (treeAfter path fs (replacing path other calls))
        (treeAfter path other calls) ∧
      ∃ final, (replacing path other calls).foldlM (fun bytes call ↦ call.rewritten? bytes) bytes =
          some final ∧
        Ready (treeAfter path fs (replacing path other calls)) path final := by
  induction calls generalizing fs other bytes with
  | nil => exact ⟨rfl, h, bytes, rfl, hready⟩
  | cons call rest ih =>
    simp only [replacing, treeAfter]
    cases hreplaces : call.replaces other path with
    | false => exact ih (h.step hready hreplaces) hready
    | true =>
      -- From here on both histories have one tree.
      have hclean : call.replaces fs path = true :=
        (h.replaces_eq hready call).symm.trans hreplaces
      obtain ⟨next, hnext, hready'⟩ := hready.of_replaces hclean
      obtain ⟨hsame, hleft, final, hfinal, hend⟩ := ih (.none) hready'
      rw [h.fileSystem_eq hready hreplaces]
      simp only [if_true, replacing, treeAfter, hclean, hsame, List.foldlM_cons, hnext]
      exact ⟨trivial, hleft, final, hfinal, hend⟩

/-- Calls for a path that is a regular file, with nothing beside it or a file without another name:
the path is a regular file after them, whose bytes are the first ones, rewritten once by each call
that succeeded and was no dry run, in their order. Whatever other calls have left, each next call
has the outcome, tells the changes and leaves the bytes that it would without them. -/
theorem history_atomic (hfs : fs.WellFormed) (hfile : fs.IsFileAt path old)
    (hscratch : ∀ file scratch, fs.absolute path = .ok file → Path.sibling file = some scratch →
      fs.entryAt? scratch = none ∨ fs.IsLoneFile scratch) (calls : List Call) :
    let replacements := replacing path fs calls
    let after := treeAfter path fs calls
    let clean := treeAfter path fs replacements
    (∃ bytes, replacements.foldlM (fun bytes call ↦ call.rewritten? bytes) old = some bytes ∧
      after.IsFileAt path bytes) ∧
    replacing path fs replacements = replacements ∧
    ∀ call : Call, (call.run after path).outcome = (call.run clean path).outcome ∧
      (call.run after path).told = (call.run clean path).told ∧
      (call.run after path).fileSystem.read? path =
        (call.run clean path).fileSystem.read? path := by
  intro replacements after clean
  have hready : Ready fs path old := ⟨hfs, hfile, hscratch⟩
  obtain ⟨hsame, hleft, bytes, hbytes, hclean⟩ := leftover_treeAfter .none hready calls
  refine ⟨⟨bytes, hbytes, (hleft.ready hclean).file⟩, hsame, fun call ↦ ?_⟩
  obtain ⟨houtcome, htold, -⟩ := hleft.run_eq hclean call.table call.dryRun call.observer
  exact ⟨houtcome, htold, hleft.read?_run hclean call⟩

/-- Beside a scratch file of another run: a call that its observer stops, a dry run, and two calls
that replace the file with one between them that its observer stops. Only the two count. -/
theorem history_atomic_stale_scratch :
    let fs : FileSystem :=
      ⟨[.directory [(['f'], 1), (['f', '-', 'n', 'e', 'w'], 2)] root, .file [97, 10],
        .file [122, 122, 122, 122, 122]], root⟩
    let stopping : Observer := .stopsAt 0 (.io [] none)
    let calls : List Call := [⟨[⟨['a'], ['x']⟩], false, stopping⟩,
      ⟨[⟨['a'], ['y']⟩], true, .silent⟩, ⟨[⟨['a'], ['b']⟩], false, .silent⟩,
      ⟨[⟨['b'], ['z']⟩], false, stopping⟩, ⟨[⟨['b'], ['c', 'c']⟩], false, .silent⟩]
    fs.WellFormed ∧ fs.IsFileAt ['f'] [97, 10] ∧ fs.IsLoneFile ['/', 'f', '-', 'n', 'e', 'w'] ∧
      (replacing ['f'] fs calls).length = 2 ∧
      (treeAfter ['f'] fs calls).IsFileAt ['f'] [99, 99, 10] := by
  intro fs stopping calls
  have hfs : fs.WellFormed := by decide
  have hfile : fs.IsFileAt ['f'] [97, 10] := ⟨rfl, 1, rfl, rfl⟩
  have hlone : fs.IsLoneFile ['/', 'f', '-', 'n', 'e', 'w'] :=
    ⟨2, [122, 122, 122, 122, 122], rfl, rfl, rfl⟩
  have hrewritten : (replacing ['f'] fs calls).foldlM (fun bytes call ↦ call.rewritten? bytes)
      [97, 10] = some [99, 99, 10] := by decide +kernel
  obtain ⟨⟨bytes, hbytes, hafter⟩, -, -⟩ := history_atomic hfs hfile
    (fun file scratch habsolute hsibling ↦ by
      obtain rfl : ['/', 'f'] = file := Except.ok.inj habsolute
      obtain rfl : ['/', 'f', '-', 'n', 'e', 'w'] = scratch := Option.some.inj hsibling
      exact Or.inr hlone) calls
  obtain rfl : [99, 99, 10] = bytes := Option.some.inj (hrewritten.symm.trans hbytes)
  exact ⟨hfs, hfile, hlone, by decide +kernel, hafter⟩

end LineMigration.Migration
