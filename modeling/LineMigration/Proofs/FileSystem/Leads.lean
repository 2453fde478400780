import Mathlib.Tactic.Common
import LineMigration.Proofs.FileSystem.WellFormed

/-!
# Where names lead

`fs.Leads directory names links inode` says that the names, walked from the directory, lead to the
node over so many symbolic links, the last of them followed too. It is the walk without its limit
and without the place where it stops: it is unique (`Leads.unique`), it composes over names
(`Leads.append`, `Leads.split`), and it can be carried from one file system to another.

`resolve_eq_ok_iff` and `placeOf_keep_eq_ok_iff` say that paths are resolved by it: to a node when
links at the end are followed, and to a directory with a last name when they are kept.
-/

namespace LineMigration.FileSystem

/-- The names, walked from a directory, lead to a node over so many symbolic links. A slash at the
end of the text of a link asks for a directory. -/
inductive Leads (fs : FileSystem) : Inode → List Name → Nat → Inode → Prop where
  | here (directory : Inode) : Leads fs directory [] 0 directory
  | step {directory inode final : Inode} {name : Name} {rest : List Name} {links : Nat} :
      fs.child directory name = .ok inode → (∀ target, fs.node? inode ≠ some (.link target)) →
      Leads fs inode rest links final → Leads fs directory (name :: rest) links final
  | follow {directory inode middle final : Inode} {name : Name} {rest : List Name}
      {target : Text} {within after : Nat} :
      fs.child directory name = .ok inode → fs.node? inode = some (.link target) →
      Leads fs (startOf directory target) (Route.ofPath target).names within middle →
      ((Route.ofPath target).slash = true → fs.isDirectoryNode middle = true) →
      Leads fs middle rest after final →
      Leads fs directory (name :: rest) (within + after + 1) final

variable {fs : FileSystem} {directory inode middle final : Inode} {name : Name}
  {names rest : List Name} {links : Nat}

/-- Only a directory has a child. -/
theorem isDirectoryNode_of_child (h : fs.child directory name = .ok inode) :
    fs.isDirectoryNode directory = true := by
  unfold child at h
  split at h
  · next entries parent hnode => exact isDirectoryNode_iff.2 ⟨entries, parent, hnode⟩
  · cases h

/-- Names that lead anywhere begin in a directory. -/
theorem Leads.isDirectoryNode (h : fs.Leads directory (name :: rest) links final) :
    fs.isDirectoryNode directory = true := by
  cases h with
  | step hchild => exact isDirectoryNode_of_child hchild
  | follow hchild => exact isDirectoryNode_of_child hchild

/-- What leads to a directory begins in one. -/
theorem Leads.isDirectoryNode_start (h : fs.Leads directory names links final)
    (hfinal : fs.isDirectoryNode final = true) : fs.isDirectoryNode directory = true := by
  cases h with
  | here => exact hfinal
  | step hchild => exact isDirectoryNode_of_child hchild
  | follow hchild => exact isDirectoryNode_of_child hchild

/-- Names lead to one node, over one number of links. -/
theorem Leads.unique {otherLinks : Nat} {other : Inode}
    (h : fs.Leads directory names links final)
    (hother : fs.Leads directory names otherLinks other) :
    links = otherLinks ∧ final = other := by
  induction h generalizing otherLinks other with
  | here =>
    cases hother
    exact ⟨rfl, rfl⟩
  | step hchild hplain _ ih =>
    cases hother with
    | step hchild' _ hrest =>
      cases hchild.symm.trans hchild'
      exact ih hrest
    | follow hchild' hlink =>
      cases hchild.symm.trans hchild'
      exact absurd hlink (hplain _)
  | follow hchild hlink _ _ _ ihwithin ihafter =>
    cases hother with
    | step hchild' hplain =>
      cases hchild.symm.trans hchild'
      exact absurd hlink (hplain _)
    | follow hchild' hlink' hwithin' _ hafter' =>
      cases hchild.symm.trans hchild'
      cases hlink.symm.trans hlink'
      obtain ⟨rfl, rfl⟩ := ihwithin hwithin'
      obtain ⟨rfl, rfl⟩ := ihafter hafter'
      exact ⟨rfl, rfl⟩

/-- Names after names lead on from where the first ones lead. -/
theorem Leads.append {more : Nat} (h : fs.Leads directory names links middle)
    (hrest : fs.Leads middle rest more final) :
    fs.Leads directory (names ++ rest) (links + more) final := by
  induction h with
  | here => simpa using hrest
  | step hchild hplain _ ih => exact .step hchild hplain (ih hrest)
  | @follow _ _ _ _ _ _ _ within after hchild hlink hwithin hslash _ _ ih =>
    have h := Leads.follow hchild hlink hwithin hslash (ih hrest)
    rwa [show within + (after + more) + 1 = within + after + 1 + more by omega] at h

/-- What names after names lead to is reached over a node that the first ones lead to. -/
theorem Leads.split (h : fs.Leads directory (names ++ rest) links final) :
    ∃ middle first second, fs.Leads directory names first middle ∧
      fs.Leads middle rest second final ∧ links = first + second := by
  induction names generalizing directory links with
  | nil => exact ⟨directory, 0, links, .here directory, h, by omega⟩
  | cons name names ih =>
    cases h with
    | step hchild hplain hrest =>
      obtain ⟨middle, first, second, hfirst, hsecond, rfl⟩ := ih hrest
      exact ⟨middle, first, second, .step hchild hplain hfirst, hsecond, rfl⟩
    | @follow _ _ _ _ _ _ _ within after hchild hlink hwithin hslash hrest =>
      obtain ⟨middle, first, second, hfirst, hsecond, rfl⟩ := ih hrest
      exact ⟨middle, within + first + 1, second, .follow hchild hlink hwithin hslash hfirst,
        hsecond, by omega⟩

/-! ## One name of a walk -/

variable {last : LastLink} {fuel : Nat} {slash : Bool} {target : Text} {place : Place}

/-- What a walk makes of where it stops among plain directories. -/
theorem walk_eq {route : Route} :
    fs.walk last fuel directory route =
      match fs.descend (last.follows route.slash) directory route.names with
      | .error cause => .error cause
      | .ok (.top reached) => .ok (.top reached)
      | .ok (.entry reached name) => .ok (.entry reached name route.slash)
      | .ok (.link found target rest) =>
        match fuel with
        | 0 => .error (.system .tooManyLinks)
        | fewer + 1 =>
          fs.walk last fewer (startOf found target)
            ((Route.ofPath target).append rest route.slash) := by
  refine (walk.eq_1 ..).trans ?_
  generalize fs.descend (last.follows route.slash) directory route.names = stopped
  cases stopped with
  | error cause => rfl
  | ok stop => cases stop <;> cases fuel <;> rfl

/-- A walk without names is at its end. -/
theorem walk_nil : fs.walk last fuel directory ⟨[], slash⟩ = .ok (.top directory) := by
  rw [walk_eq]
  rfl

/-- A walk stops at its last name, unless that is a link to be followed. -/
theorem walk_last (h : last.follows slash = true → fs.linkAt? directory name = none) :
    fs.walk last fuel directory ⟨[name], slash⟩ = .ok (.entry directory name slash) := by
  have hdescend : fs.descend (last.follows slash) directory [name] =
      .ok (.entry directory name) := by
    cases hfollows : last.follows slash with
    | false => rfl
    | true => simp [descend, h hfollows]
  rw [walk_eq, hdescend]

/-- A link at the last name is followed where that is asked for. -/
theorem walk_last_link (hfollows : last.follows slash = true)
    (hlink : fs.linkAt? directory name = some target) :
    fs.walk last fuel directory ⟨[name], slash⟩ =
      match fuel with
      | 0 => .error (.system .tooManyLinks)
      | fewer + 1 =>
        fs.walk last fewer (startOf directory target) ((Route.ofPath target).append [] slash) := by
  have hdescend : fs.descend (last.follows slash) directory [name] =
      .ok (.link directory target []) := by
    simp [descend, hfollows, hlink]
  rw [walk_eq, hdescend]

/-- A walk goes through a directory. -/
theorem walk_directory (hrest : rest ≠ []) (hchild : fs.child directory name = .ok inode)
    (hinode : fs.isDirectoryNode inode = true) :
    fs.walk last fuel directory ⟨name :: rest, slash⟩ = fs.walk last fuel inode ⟨rest, slash⟩ := by
  obtain ⟨entries, parent, hnode⟩ := isDirectoryNode_iff.1 hinode
  rw [walk_eq, walk_eq, descend_directory hrest hchild hnode]

/-- A link before the last name is followed. -/
theorem walk_link (hrest : rest ≠ []) (hchild : fs.child directory name = .ok inode)
    (hnode : fs.node? inode = some (.link target)) :
    fs.walk last fuel directory ⟨name :: rest, slash⟩ =
      match fuel with
      | 0 => .error (.system .tooManyLinks)
      | fewer + 1 =>
        fs.walk last fewer (startOf directory target)
          ((Route.ofPath target).append rest slash) := by
  have hdescend : ∀ follow, fs.descend follow directory (name :: rest) =
      .ok (.link directory target rest) := by
    intro follow
    cases rest with
    | nil => exact absurd rfl hrest
    | cons next rest => simp [descend, hchild, hnode]
  rw [walk_eq, hdescend]

/-- A walk that gets past a name has met a directory or a link there. -/
theorem child_of_walk (hrest : rest ≠ [])
    (h : fs.walk last fuel directory ⟨name :: rest, slash⟩ = .ok place) :
    ∃ inode, fs.child directory name = .ok inode ∧
      (fs.isDirectoryNode inode = true ∨ ∃ target, fs.node? inode = some (.link target)) := by
  cases hchild : fs.child directory name with
  | error cause =>
    have hdescend : ∀ follow, fs.descend follow directory (name :: rest) = .error cause := by
      intro follow
      cases rest with
      | nil => exact absurd rfl hrest
      | cons next rest => simp [descend, hchild]
    rw [walk_eq, hdescend] at h
    cases h
  | ok inode =>
    refine ⟨inode, rfl, ?_⟩
    by_contra hother
    simp only [isDirectoryNode_iff, not_or, not_exists] at hother
    have hdescend : ∀ follow, fs.descend follow directory (name :: rest) =
        .error (.system .notDirectory) := by
      intro follow
      cases rest with
      | nil => exact absurd rfl hrest
      | cons next rest =>
        simp only [descend, hchild]
        split
        · next entries parent hnode => exact absurd hnode (hother.1 entries parent)
        · next target hnode => exact absurd hnode (hother.2 target)
        · rfl
    rw [walk_eq, hdescend] at h
    cases h

/-! ## Walks that follow every link -/

/-- Where a path starts is a directory. -/
theorem WellFormed.isDirectoryNode_startOf (hfs : fs.WellFormed)
    (hdirectory : fs.isDirectoryNode directory = true) (path : Text) :
    fs.isDirectoryNode (startOf directory path) = true := by
  unfold startOf
  split
  · exact hfs.root
  · exact hdirectory

/-- A node at a place that has a slash after it is a directory. -/
theorem nodeAt_entry_eq_ok_iff :
    fs.nodeAt (.entry directory name slash) = .ok inode ↔
      fs.child directory name = .ok inode ∧ (slash = true → fs.isDirectoryNode inode = true) := by
  simp only [nodeAt]
  cases hchild : fs.child directory name with
  | error cause => simp
  | ok found =>
    simp only [Except.ok.injEq]
    constructor
    · intro h
      split at h
      · cases h
      · next hgood =>
        cases h
        exact ⟨rfl, fun hslash ↦ by simpa [hslash] using hgood⟩
    · rintro ⟨rfl, hslash⟩
      rw [if_neg]
      intro hbad
      rw [Bool.and_eq_true, Bool.not_eq_true'] at hbad
      rw [hslash hbad.1] at hbad
      exact absurd hbad.2 (by simp)

/-- What a walk over all links finds, the names lead to. -/
theorem leads_of_walk (hfs : fs.WellFormed) (hdirectory : fs.isDirectoryNode directory = true)
    (hwalk : fs.walk .follow fuel directory ⟨names, slash⟩ = .ok place)
    (hnode : fs.nodeAt place = .ok final) :
    ∃ links, links ≤ fuel ∧ fs.Leads directory names links final ∧
      (slash = true → fs.isDirectoryNode final = true) := by
  -- A link that is met takes one from those that may follow and puts its names before the others,
  -- so the induction is on the links first, and within it on the names.
  induction fuel using Nat.strongRecOn generalizing directory names slash with
  | ind fuel ihfuel =>
    induction names generalizing directory with
    | nil =>
      rw [walk_nil] at hwalk
      cases hwalk
      cases hnode
      exact ⟨0, Nat.zero_le _, .here _, fun _ ↦ hdirectory⟩
    | cons name rest ih =>
      by_cases hrest : rest = []
      · subst hrest
        cases hlink : fs.linkAt? directory name with
        | none =>
          rw [walk_last fun _ ↦ hlink] at hwalk
          cases hwalk
          obtain ⟨hchild, hslash⟩ := nodeAt_entry_eq_ok_iff.1 hnode
          refine ⟨0, Nat.zero_le _, .step hchild ?_ (.here final), hslash⟩
          intro target htarget
          have hsome := hfs.linkAt?_eq_some_iff.2 ⟨final, hchild, htarget⟩
          rw [hlink] at hsome
          cases hsome
        | some target =>
          obtain ⟨inode, hchild, htarget⟩ := hfs.linkAt?_eq_some_iff.1 hlink
          rw [walk_last_link rfl hlink] at hwalk
          cases fuel with
          | zero => cases hwalk
          | succ fewer =>
            obtain ⟨links, hle, hleads, hslash⟩ := ihfuel fewer (Nat.lt_succ_self _)
              (hfs.isDirectoryNode_startOf hdirectory target) hwalk
            rw [List.append_nil] at hleads
            refine ⟨links + 0 + 1, by omega, .follow hchild htarget hleads ?_ (.here final), ?_⟩
            · intro h
              exact hslash (by simp [h])
            · intro h
              exact hslash (by simp [h])
      · obtain ⟨inode, hchild, hinode | ⟨target, htarget⟩⟩ := child_of_walk hrest hwalk
        · rw [walk_directory hrest hchild hinode] at hwalk
          obtain ⟨links, hle, hleads, hslash⟩ := ih hinode hwalk
          exact ⟨links, hle, .step hchild (not_link_of_isDirectoryNode hinode) hleads, hslash⟩
        · rw [walk_link hrest hchild htarget] at hwalk
          cases fuel with
          | zero => cases hwalk
          | succ fewer =>
            obtain ⟨links, hle, hleads, hslash⟩ := ihfuel fewer (Nat.lt_succ_self _)
              (hfs.isDirectoryNode_startOf hdirectory target) hwalk
            obtain ⟨middle, first, second, hfirst, hsecond, rfl⟩ := hleads.split
            refine ⟨first + second + 1, by omega, .follow hchild htarget hfirst ?_ hsecond, ?_⟩
            · intro _
              cases rest with
              | nil => exact absurd rfl hrest
              | cons next rest => exact hsecond.isDirectoryNode
            · intro h
              exact hslash (by simp [h])

/-- What names lead to, a walk over that many links finds. -/
theorem walk_of_leads (hfs : fs.WellFormed) (h : fs.Leads directory names links final)
    (hslash : slash = true → fs.isDirectoryNode final = true) (hle : links ≤ fuel) :
    ∃ place, fs.walk .follow fuel directory ⟨names, slash⟩ = .ok place ∧
      fs.nodeAt place = .ok final := by
  induction fuel using Nat.strongRecOn generalizing directory names slash links with
  | ind fuel ihfuel =>
    induction names generalizing directory links with
    | nil =>
      cases h
      exact ⟨.top _, walk_nil, rfl⟩
    | cons name rest ih =>
      cases h with
      | @step _ inode _ _ _ _ hchild hplain hrest =>
        by_cases hnil : rest = []
        · subst hnil
          cases hrest
          have hlink : fs.linkAt? directory name = none := by
            rw [Option.eq_none_iff_forall_ne_some]
            intro target hsome
            obtain ⟨found, hfound, htarget⟩ := hfs.linkAt?_eq_some_iff.1 hsome
            cases hchild.symm.trans hfound
            exact hplain target htarget
          exact ⟨_, walk_last fun _ ↦ hlink, nodeAt_entry_eq_ok_iff.2 ⟨hchild, hslash⟩⟩
        · have hinode : fs.isDirectoryNode inode = true := by
            cases rest with
            | nil => exact absurd rfl hnil
            | cons next rest => exact hrest.isDirectoryNode
          rw [walk_directory hnil hchild hinode]
          exact ih hrest hle
      | @follow _ inode middle _ _ _ target within after hchild htarget hwithin htext hafter =>
        obtain ⟨fewer, rfl⟩ : ∃ fewer, fuel = fewer + 1 := ⟨fuel - 1, by omega⟩
        -- The names of the text and those after the link are walked as one route.
        have hleads := hwithin.append hafter
        by_cases hnil : rest = []
        · subst hnil
          cases hafter
          have hlink := hfs.linkAt?_eq_some_iff.2 ⟨inode, hchild, htarget⟩
          rw [walk_last_link rfl hlink]
          refine ihfuel fewer (Nat.lt_succ_self _) hleads ?_ (by omega)
          intro h
          rcases Bool.or_eq_true_iff.1 h with h | h
          · exact hslash h
          · exact htext (by simpa using h)
        · rw [walk_link hnil hchild htarget]
          refine ihfuel fewer (Nat.lt_succ_self _) hleads ?_ (by omega)
          intro h
          have hempty : rest.isEmpty = false := by simpa using hnil
          exact hslash (by simpa [hempty] using h)

/-- One operation after another succeeds where both do. -/
theorem bind_eq_ok_iff {α β : Type} {first : Except Cause α} {second : α → Except Cause β} {b : β} :
    first >>= second = .ok b ↔ ∃ a, first = .ok a ∧ second a = .ok b := by
  cases first <;> simp [bind, Except.bind]

/-- A path resolves to the node at the place that it leads to. -/
theorem resolve_eq_ok_iff_placeOf {path : Text} :
    fs.resolve path = .ok inode ↔ checkPath path = .ok () ∧
      ∃ place, fs.placeOf .follow path = .ok place ∧ fs.nodeAt place = .ok inode := by
  simp only [resolve, bind_eq_ok_iff]
  exact ⟨fun ⟨_, hcheck, hplace⟩ ↦ ⟨hcheck, hplace⟩, fun ⟨hcheck, hplace⟩ ↦ ⟨(), hcheck, hplace⟩⟩

/-- A path resolves to the node that its names lead to, if the system looks at it at all, over
no more links than it follows. -/
theorem resolve_eq_ok_iff (hfs : fs.WellFormed) {path : Text} :
    fs.resolve path = .ok inode ↔
      checkPath path = .ok () ∧ ∃ links, links ≤ maxLinks ∧
        fs.Leads (startOf fs.workingDirectory path) (Route.ofPath path).names links inode ∧
        ((Route.ofPath path).slash = true → fs.isDirectoryNode inode = true) := by
  rw [resolve_eq_ok_iff_placeOf]
  refine and_congr_right fun _ ↦ ⟨?_, ?_⟩
  · rintro ⟨place, hplace, hnode⟩
    exact leads_of_walk hfs (hfs.isDirectoryNode_startOf hfs.workingDirectory path) hplace hnode
  · rintro ⟨links, hle, hleads, hslash⟩
    exact walk_of_leads hfs hleads hslash hle

/-! ## Walks up to a last name -/

/-- Names that lead to a directory can be walked ahead of others. -/
theorem walk_append (h : fs.Leads directory names links middle)
    (hmiddle : fs.isDirectoryNode middle = true) (hle : links ≤ fuel) (hrest : rest ≠ []) :
    fs.walk last fuel directory ⟨names ++ rest, slash⟩ =
      fs.walk last (fuel - links) middle ⟨rest, slash⟩ := by
  induction h generalizing fuel rest with
  | here => simp
  | @step _ inode _ _ names _ hchild _ htail ih =>
    have hinode := htail.isDirectoryNode_start hmiddle
    have hne : names ++ rest ≠ [] := by simp [hrest]
    rw [List.cons_append, walk_directory hne hchild hinode]
    exact ih hmiddle hle hrest
  | @follow _ _ found _ _ names target within after hchild htarget _ _ hafter ihwithin ihafter =>
    have hfound := hafter.isDirectoryNode_start hmiddle
    have hne : names ++ rest ≠ [] := by simp [hrest]
    obtain ⟨fewer, rfl⟩ : ∃ fewer, fuel = fewer + 1 := ⟨fuel - 1, by omega⟩
    have hroute : (Route.ofPath target).append (names ++ rest) slash =
        ⟨(Route.ofPath target).names ++ (names ++ rest), slash⟩ := by
      simp [Route.append, hrest]
    rw [List.cons_append, walk_link hne hchild htarget, hroute]
    -- First the text of the link is walked ahead of all that is left, then the names after it.
    show fs.walk last fewer _ _ = _
    rw [ihwithin hfound (by omega) hne, ihafter hmiddle (by omega) hrest]
    congr 1
    omega

/-- A walk with names left has come to a directory by the names before them. -/
theorem leads_of_walk_append (hfs : fs.WellFormed)
    (hdirectory : fs.isDirectoryNode directory = true) (hrest : rest ≠ [])
    (h : fs.walk last fuel directory ⟨names ++ rest, slash⟩ = .ok place) :
    ∃ links middle, links ≤ fuel ∧ fs.Leads directory names links middle ∧
      fs.isDirectoryNode middle = true := by
  induction fuel using Nat.strongRecOn generalizing directory names with
  | ind fuel ihfuel =>
    induction names generalizing directory with
    | nil => exact ⟨0, directory, Nat.zero_le _, .here directory, hdirectory⟩
    | cons name names ih =>
      have hne : names ++ rest ≠ [] := by simp [hrest]
      rw [List.cons_append] at h
      obtain ⟨inode, hchild, hinode | ⟨target, htarget⟩⟩ := child_of_walk hne h
      · rw [walk_directory hne hchild hinode] at h
        obtain ⟨links, middle, hle, hleads, hmiddle⟩ := ih hinode h
        exact ⟨links, middle, hle, .step hchild (not_link_of_isDirectoryNode hinode) hleads,
          hmiddle⟩
      · rw [walk_link hne hchild htarget] at h
        cases fuel with
        | zero => cases h
        | succ fewer =>
          have hroute : (Route.ofPath target).append (names ++ rest) slash =
              ⟨((Route.ofPath target).names ++ names) ++ rest, slash⟩ := by
            simp [Route.append, hrest]
          rw [hroute] at h
          obtain ⟨links, middle, hle, hleads, hmiddle⟩ := ihfuel fewer (Nat.lt_succ_self _)
            (hfs.isDirectoryNode_startOf hdirectory target) h
          -- What the route leads to is split where the text of the link ends.
          obtain ⟨found, first, second, hfirst, hsecond, rfl⟩ := hleads.split
          have hfound := hsecond.isDirectoryNode_start hmiddle
          exact ⟨first + second + 1, middle, by omega,
            .follow hchild htarget hfirst (fun _ ↦ hfound) hsecond, hmiddle⟩

/-- Where links at the end are kept, a path names the directory that the names before its last one
lead to, and the last one. -/
theorem placeOf_keep_eq_ok_iff (hfs : fs.WellFormed) {path : Text} {before : List Name}
    (hnames : (Route.ofPath path).names = before ++ [name]) :
    fs.placeOf .keep path = .ok place ↔
      ∃ links directory, links ≤ maxLinks ∧
        fs.Leads (startOf fs.workingDirectory path) before links directory ∧
        fs.isDirectoryNode directory = true ∧
        place = .entry directory name (Route.ofPath path).slash := by
  have hroute : Route.ofPath path = ⟨before ++ [name], (Route.ofPath path).slash⟩ := by
    rw [← hnames]
  have hstart := hfs.isDirectoryNode_startOf hfs.workingDirectory path
  have hlast : ∀ fuel directory, fs.walk .keep fuel directory
      ⟨[name], (Route.ofPath path).slash⟩ =
        .ok (.entry directory name (Route.ofPath path).slash) := fun fuel directory ↦
    walk_last fun hfollows ↦ by cases hfollows
  rw [placeOf, hroute]
  constructor
  · intro h
    obtain ⟨links, middle, hle, hleads, hmiddle⟩ :=
      leads_of_walk_append hfs hstart (List.cons_ne_nil _ _) h
    rw [walk_append hleads hmiddle hle (List.cons_ne_nil _ _), hlast] at h
    cases h
    exact ⟨links, middle, hle, hleads, hmiddle, rfl⟩
  · rintro ⟨links, middle, hle, hleads, hmiddle, rfl⟩
    rw [walk_append hleads hmiddle hle (List.cons_ne_nil _ _), hlast]

end LineMigration.FileSystem
