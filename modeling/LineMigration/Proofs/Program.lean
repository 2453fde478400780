import LineMigration.Program
import LineMigration.Proofs.Command.Failure

/-!
# The program in memory

`inMemory` is a system whose operations change a `Memory`: a file system, what was printed, and the
buffer of the file that is being written. On it the program does what the library says of it: the
loop over lines is `Stream.edit` (`run_editLines`), and a process leaves what `Command.run` gives
(`ends_run`).
-/

namespace LineMigration.Program

open LineMigration.Stream

/-- What the operations of a system in memory change. -/
structure Memory where
  fileSystem : FileSystem
  /-- The buffer before the file that was created last. -/
  writer : Buffered
  printed : Text
  complaints : Text

namespace Memory

/-- More is printed. -/
def printing (memory : Memory) (piece : Text) : Memory :=
  { memory with printed := memory.printed ++ piece }

/-- More is complained of. -/
def complaining (memory : Memory) (text : Text) : Memory :=
  { memory with complaints := memory.complaints ++ text }

/-- What a process with this exit code leaves. -/
def process (memory : Memory) (exitCode : Nat) : Command.Process :=
  ⟨memory.fileSystem, exitCode, memory.printed, memory.complaints⟩

end Memory

/-- The system in memory, with a standard output of this kind. -/
def inMemory (stdout : Command.Stdout) : System (StateM Memory) Inode Inode where
  absolute path := modifyGet fun memory ↦ (memory.fileSystem.absolute path, memory)
  isDirectory path := modifyGet fun memory ↦ (memory.fileSystem.isDirectory path, memory)
  openRead path := modifyGet fun memory ↦ (memory.fileSystem.openRead path, memory)
  readLines source := modifyGet fun memory ↦
    ((Reader.ofBytes (memory.fileSystem.contents source)).lines, memory)
  create path := modifyGet fun memory ↦
    match memory.fileSystem.create path with
    | .error cause => (.error cause, memory)
    | .ok (created, target) =>
      (.ok target,
        { memory with fileSystem := created, writer := Migration.writerTo created target })
  write _ bytes := modifyGet fun memory ↦
    ((memory.writer.write bytes).2, { memory with writer := (memory.writer.write bytes).1 })
  flush _ := modifyGet fun memory ↦
    (memory.writer.flush.2, { memory with writer := memory.writer.flush.1 })
  close target := modify fun memory ↦
    { memory with fileSystem := memory.fileSystem.append target memory.writer.close.taken }
  rename source target := modifyGet fun memory ↦
    match memory.fileSystem.rename source target with
    | .error cause => (.error cause, memory)
    | .ok renamed => (.ok (), { memory with fileSystem := renamed })
  print piece := modifyGet fun memory ↦ (stdout.answer piece, memory.printing (stdout.shown piece))
  complain text := modify fun memory ↦ memory.complaining text
  reject text := modify fun memory ↦ memory.complaining text

variable {table : Table} {observer : Observer} {stdout : Command.Stdout} {memory : Memory}

/-! ## The loop -/

/-- The loop over lines is the run over them, where the state is given by the writer and by what
was told: telling answers as the observer, and putting as the writer. -/
theorem run_editLines {σ S : Type} [Writer σ] {tell : Change → StateM S (Option Fault)}
    {put : Bytes → StateM S (Option Cause)} {state : σ → List Change → S}
    (htell : ∀ writer told change, (tell change).run (state writer told) =
      pure (observer told change, state writer (told ++ [change])))
    (hput : ∀ writer told bytes, (put bytes).run (state writer told) =
      pure ((Writer.write writer bytes).2, state (Writer.write writer bytes).1 told))
    (number : Nat) (told collected : List Change) (lines : List (Except Cause Text)) (writer : σ) :
    (editLines table tell put number collected lines).run (state writer told) =
      let run := edit table observer number told collected lines writer
      pure (run.outcome, state run.writer (told ++ run.changes)) := by
  induction lines generalizing number told collected writer with
  | nil => simp [editLines, edit, Run.changes]
  | cons first rest ih =>
    cases first with
    | error cause => simp [editLines, edit, Run.changes]
    | ok line =>
      cases happly : table.apply line with
      | none =>
        simp only [editLines, edit, happly, StateT.run_bind, hput, pure_bind]
        cases hwrite : Writer.write writer (Text.utf8 line) with
        | mk next refused =>
          cases refused with
          | some cause => simp [Run.changes]
          | none => simpa using ih ..
      | some new =>
        simp only [editLines, edit, happly, StateT.run_bind, htell, pure_bind]
        cases observer told (changeOf number line new) with
        | some fault => simp [Run.changes]
        | none =>
          simp only [StateT.run_bind, hput, pure_bind]
          cases hwrite : Writer.write writer (Text.utf8 new) with
          | mk next refused =>
            cases refused with
            | some cause => simp [Run.changes]
            | none =>
              simpa [Run.after, Run.changes] using ih (number + 1)
                (told ++ [changeOf number line new]) (collected ++ [changeOf number line new]) next

/-! ## The file -/

/-- Telling answers as an observer, and prints this text for each change. -/
def Tells (tell : Change → StateM Memory (Option Fault)) (observer : Observer)
    (log : Change → Text) : Prop :=
  ∀ memory told change,
    (tell change).run memory = pure (observer told change, memory.printing (log change))

/-- A computation gives this value and leaves this file system, and it has printed this text. -/
def Leaves {α : Type} (computation : StateM Memory α) (memory : Memory) (value : α)
    (fs : FileSystem) (text : Text) : Prop :=
  ∃ writer, computation.run memory =
    pure (value, ⟨fs, writer, memory.printed ++ text, memory.complaints⟩)

variable {tell : Change → StateM Memory (Option Fault)} {log : Change → Text} {source : Inode}
  {file scratch : Text} {α β : Type} {value : α} {fs : FileSystem} {text : Text}

/-- Nothing happens. -/
theorem Leaves.pure : Leaves (pure value) memory value memory.fileSystem [] :=
  ⟨memory.writer, by simp⟩

/-- A question that changes nothing comes before. -/
theorem Leaves.ask {first : StateM Memory β} {rest : β → StateM Memory α} {answer : β}
    (hfirst : first.run memory = Pure.pure (answer, memory))
    (hrest : Leaves (rest answer) memory value fs text) :
    Leaves (first >>= rest) memory value fs text := by
  obtain ⟨writer, hrun⟩ := hrest
  exact ⟨writer, by rw [StateT.run_bind, hfirst, pure_bind, hrun]⟩

/-- In memory the loop leaves what the run makes of the writer, and prints what it tells. -/
theorem run_editLines_inMemory {σ : Type} [Writer σ] {put : Bytes → StateM Memory (Option Cause)}
    {place : σ → Memory} (htell : Tells tell observer log)
    (hput : ∀ writer text bytes, (put bytes).run ((place writer).printing text) =
      pure ((Writer.write writer bytes).2, (place (Writer.write writer bytes).1).printing text))
    (lines : List (Except Cause Text)) (writer : σ) :
    (editLines table tell put 0 [] lines).run (place writer) =
      let run := edit table observer 0 [] [] lines writer
      pure (run.outcome, (place run.writer).printing (run.changes.flatMap log)) := by
  have hloop := @run_editLines table observer σ Memory _ tell put
    (fun writer told ↦ (place writer).printing (told.flatMap log))
    (fun writer told change ↦ by rw [htell _ told]; simp [Memory.printing])
    (fun writer told ↦ hput writer _) 0 [] [] lines writer
  simpa [Memory.printing] using hloop

/-- The edit alone. -/
theorem leaves_rehearse (htell : Tells tell observer log) :
    let run := Migration.rehearse table observer memory.fileSystem source file
    Leaves (rehearse (inMemory stdout) table tell source file) memory run.outcome run.fileSystem
      (run.told.flatMap log) := by
  have hloop := @run_editLines_inMemory table observer tell log Discard _ (fun _ ↦ pure none)
    (fun _ ↦ memory) htell (fun _ _ _ ↦ rfl)
    (Reader.ofBytes (memory.fileSystem.contents source)).lines .discard
  refine ⟨memory.writer, ?_⟩
  simp only [rehearse, Migration.rehearse, editAll, inMemory, StateT.run_bind,
    StateT.run_modifyGet, pure_bind, hloop]
  cases (edit table observer 0 [] [] _ Discard.discard).outcome <;> rfl

/-- The replacement, with the buffer before the scratch file in the memory. -/
theorem leaves_replaceThrough (htell : Tells tell observer log) :
    let run := Migration.replaceThrough table observer memory.fileSystem source file scratch
    Leaves (replaceThrough (inMemory stdout) table tell source file scratch) memory run.outcome
      run.fileSystem (run.told.flatMap log) := by
  simp only [replaceThrough, Migration.replaceThrough, editAll, inMemory, Leaves, StateT.run_bind,
    StateT.run_modifyGet, pure_bind]
  cases hcreate : memory.fileSystem.create scratch with
  | error cause =>
    refine ⟨memory.writer, ?_⟩
    simp [Migration.Run.failed]
  | ok result =>
    obtain ⟨created, target⟩ := result
    have hloop := @run_editLines_inMemory table observer tell log Buffered _
      ((inMemory stdout).write target)
      (fun writer ↦ { memory with fileSystem := created, writer := writer }) htell
      (fun _ _ _ ↦ rfl) (Reader.ofBytes (created.contents source)).lines
      (Migration.writerTo created target)
    simp only [inMemory] at hloop
    simp only [StateT.run_bind, StateT.run_modifyGet, pure_bind, hloop]
    generalize edit table observer 0 [] [] _ (Migration.writerTo created target) = run
    cases run.outcome with
    | error failure => exact ⟨_, rfl⟩
    | ok changes =>
      refine ⟨run.writer.flush.1, ?_⟩
      simp only [StateT.run_bind, StateT.run_modifyGet, StateT.run_modify, pure_bind,
        Memory.printing]
      cases run.writer.flush.2 with
      | some cause => rfl
      | none =>
        simp only [StateT.run_bind, StateT.run_modifyGet, pure_bind]
        cases (created.append target run.writer.flush.1.close.taken).rename scratch file <;> rfl

/-- The migration of a file. -/
theorem leaves_migrate (htell : Tells tell observer log) (dryRun : Bool) (path : Text) :
    let run := Migration.migrate table dryRun observer memory.fileSystem path
    Leaves (migrate (inMemory stdout) table dryRun tell path) memory run.outcome run.fileSystem
      (run.told.flatMap log) := by
  unfold migrate Migration.migrate
  refine .ask rfl ?_
  cases memory.fileSystem.absolute path with
  | error cause => exact .pure
  | ok file =>
    refine .ask rfl ?_
    dsimp only
    cases memory.fileSystem.isDirectory file with
    | true => exact .pure
    | false =>
      refine .ask rfl ?_
      simp only [Bool.false_eq_true, if_false]
      cases memory.fileSystem.openRead file with
      | error cause => exact .pure
      | ok source =>
        cases dryRun with
        | true => exact leaves_rehearse htell
        | false =>
          simp only [Bool.false_eq_true, if_false]
          cases Path.sibling file with
          | none => exact .pure
          | some scratch => exact leaves_replaceThrough htell

/-! ## The process -/

/-- What the arguments ask for. -/
theorem leaves_execute (htell : Tells tell observer log) (arguments : Command.Arguments) :
    let execution := Command.execute memory.fileSystem arguments observer
    Leaves (execute (inMemory stdout) arguments tell) memory execution.outcome
      execution.fileSystem (execution.told.flatMap log) := by
  unfold execute Command.execute
  cases Command.taskOf arguments with
  | error fault => exact .pure
  | ok task =>
    cases task with
    | list => exact .pure
    | migrate file =>
      obtain ⟨writer, hrun⟩ := @leaves_migrate .v3 observer stdout memory tell log htell
        arguments.dryRun file
      refine ⟨writer, ?_⟩
      simp only [StateT.run_bind, hrun, pure_bind]
      cases (Migration.migrate .v3 arguments.dryRun observer memory.fileSystem file).outcome <;> rfl

/-- Printing a piece. -/
theorem run_show (piece : Text) : (show? (inMemory stdout) piece).run memory =
    pure (stdout.refusal piece, memory.printing (stdout.shown piece)) := rfl

/-- Nothing arrives of a piece that is refused. -/
theorem printing_of_refusal {piece : Text} {fault : Fault}
    (h : stdout.refusal piece = some fault) : memory.printing (stdout.shown piece) = memory := by
  obtain rfl := Command.eq_full_of_refusal h
  simp [Memory.printing, Command.Stdout.shown]

/-- Printing every change tells as the log of the output does. -/
theorem tells_show (stdout : Command.Stdout) :
    Tells (fun change ↦ show? (inMemory stdout) change.text) stdout.log
      (fun change ↦ stdout.shown change.text) :=
  fun _ _ _ ↦ rfl

/-- Nobody is told. -/
theorem tells_silent : Tells (fun _ ↦ pure none) .silent (fun _ ↦ []) := by
  intro memory told change
  simp [Observer.silent, Memory.printing]

/-- A computation leaves what the process leaves, with its exit code. -/
def Ends (computation : StateM Memory Nat) (memory : Memory) (process : Command.Process) : Prop :=
  ∃ exitCode left, computation.run memory = pure (exitCode, left) ∧ left.process exitCode = process

variable {writer : Buffered}

theorem ends_runText (fs : FileSystem) (stdout : Command.Stdout) (arguments : Command.Arguments) :
    Ends (runText (inMemory stdout) arguments) ⟨fs, writer, [], []⟩
      (Command.runText fs stdout arguments) := by
  obtain ⟨left, hrun⟩ := @leaves_execute stdout.log stdout ⟨fs, writer, [], []⟩ _ _
    (tells_show stdout) arguments
  unfold Ends
  simp only [runText, Command.runText, StateT.run_bind, hrun, pure_bind]
  cases (Command.execute fs arguments stdout.log).outcome with
  | ok output =>
    simp only [StateT.run_bind, run_show, pure_bind]
    cases hrefusal : stdout.refusal output.text with
    | none => exact ⟨_, _, rfl, rfl⟩
    | some fault =>
      rw [printing_of_refusal hrefusal]
      exact ⟨_, _, rfl, rfl⟩
  | error fault =>
    dsimp only
    split <;> exact ⟨_, _, rfl, rfl⟩

theorem ends_runJson (fs : FileSystem) (stdout : Command.Stdout) (arguments : Command.Arguments) :
    Ends (runJson (inMemory stdout) arguments) ⟨fs, writer, [], []⟩
      (Command.runJson fs stdout arguments) := by
  obtain ⟨left, hrun⟩ := @leaves_execute .silent stdout ⟨fs, writer, [], []⟩ _ _ tells_silent
    arguments
  have hnothing : ∀ told : List Change, (told.flatMap fun _ ↦ ([] : Text)) = [] :=
    fun _ ↦ List.flatMap_eq_nil_iff.2 fun _ _ ↦ rfl
  rw [hnothing] at hrun
  unfold Ends
  simp only [runJson, Command.runJson, StateT.run_bind, hrun, run_show, pure_bind]
  cases hrefusal : stdout.refusal (Command.payload _) with
  | none => exact ⟨_, _, rfl, rfl⟩
  | some fault =>
    rw [printing_of_refusal hrefusal]
    exact ⟨_, _, rfl, rfl⟩

/-- For every command line, tree and output, the program on the system in memory leaves what the
process leaves. -/
theorem ends_run (fs : FileSystem) (stdout : Command.Stdout) (words : List Text)
    (writer : Buffered) :
    Ends (run (inMemory stdout) words) ⟨fs, writer, [], []⟩ (Command.run fs stdout words) := by
  unfold run Command.run
  cases Command.parse words with
  | error complaint => exact ⟨_, _, rfl, rfl⟩
  | ok invocation =>
    cases invocation with
    | help long => cases long <;> exact ⟨_, _, rfl, rfl⟩
    | version => exact ⟨_, _, rfl, rfl⟩
    | run arguments =>
      dsimp only
      split
      · exact ends_runJson ..
      · exact ends_runText ..

end LineMigration.Program
