import LineMigration.Command.Run

/-!
# A reader that has gone

A process asks its standard output for one thing only: which pieces it refuses. Outputs that refuse
alike stop a log at the same change and fail the same closing text or envelope, so the processes
differ in nothing but what they show (`alike_run`). A pipe that nobody reads takes no piece, and
still it refuses none, as the answer of the system that the reader has gone is no fault; so it might
as well be healthy (`alike_run_closed`).
-/

namespace LineMigration.Command

variable {stdout other : Stdout}

/-- Two outputs refuse the same pieces, with the same faults. -/
def Stdout.RefusesAs (stdout other : Stdout) : Prop :=
  ∀ piece, stdout.refusal piece = other.refusal piece

/-- Two processes differ at most in what they show. -/
structure Process.Alike (process other : Process) : Prop where
  exitCode : process.exitCode = other.exitCode
  stderr : process.stderr = other.stderr
  fileSystem : process.fileSystem = other.fileSystem

theorem Process.Alike.refl (process : Process) : process.Alike process := ⟨rfl, rfl, rfl⟩

namespace Stdout

/-- A reader that has gone refuses as a healthy output does, which is nothing. -/
theorem refusesAs_closed_healthy : closed.RefusesAs healthy := by
  intro piece
  rw [refusal_closed, refusal_healthy]

/-- The logs of outputs that refuse alike stop at the same changes. -/
theorem RefusesAs.log_eq (h : stdout.RefusesAs other) : stdout.log = other.log := by
  funext told change
  exact h change.text

end Stdout

/-- In text mode the changes, the closing text and the fault are printed. -/
theorem alike_runText (h : stdout.RefusesAs other) (fs : FileSystem) (arguments : Arguments) :
    (runText fs stdout arguments).Alike (runText fs other arguments) := by
  unfold runText
  rw [h.log_eq]
  dsimp only
  cases (execute fs arguments other.log).outcome with
  | ok output =>
    dsimp only
    rw [h output.text]
    cases other.refusal output.text <;> exact ⟨rfl, rfl, rfl⟩
  | error fault =>
    -- A fault goes to the other output, or it is a missing argument, whose printing nobody checks.
    dsimp only
    split <;> exact ⟨rfl, rfl, rfl⟩

/-- In JSON mode the envelope is printed, and nothing before it. -/
theorem alike_runJson (h : stdout.RefusesAs other) (fs : FileSystem) (arguments : Arguments) :
    (runJson fs stdout arguments).Alike (runJson fs other arguments) := by
  unfold runJson
  dsimp only
  rw [h]
  cases other.refusal _ <;> exact ⟨rfl, rfl, rfl⟩

/-- Outputs that refuse alike make no difference to any command line. -/
theorem alike_run (h : stdout.RefusesAs other) (fs : FileSystem) (words : List Text) :
    (run fs stdout words).Alike (run fs other words) := by
  unfold run
  cases parse words with
  | error complaint => exact .refl _
  | ok invocation =>
    cases invocation with
    | help long => cases long <;> exact ⟨rfl, rfl, rfl⟩
    | version => exact ⟨rfl, rfl, rfl⟩
    | run arguments =>
      dsimp only
      split
      · exact alike_runJson h fs arguments
      · exact alike_runText h fs arguments

/-- A command line ends with the same exit code, the same standard error and the same file system
whether its standard output is a pipe that nobody reads or everything arrives. -/
theorem alike_run_closed (fs : FileSystem) (words : List Text) :
    (run fs .closed words).Alike (run fs .healthy words) :=
  alike_run Stdout.refusesAs_closed_healthy fs words

end LineMigration.Command
