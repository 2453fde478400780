import LineMigration.Proofs.Stream.Course

/-!
# The same lines before two writers

Only the writer can make two runs over the same lines differ. Against a run whose writer never
fails, any other run tells the same changes and ends in the same way, or its own writer failed and
it has told the first of those changes (`edit_follows`).
-/

namespace LineMigration.Stream

variable {σ τ : Type} {table : Table} {observer : Observer} {run : Run σ} {whole : Run τ}

/-- How a run stands to one over the same lines that its writer cannot stop. -/
inductive Follows (whole : Run τ) (run : Run σ) : Prop where
  /-- It has told the same changes and ended in the same way. -/
  | same : run.failure = whole.failure → run.changes = whole.changes → Follows whole run
  /-- Its writer has failed, and it has told the first of the changes. -/
  | shorter {cause : Cause} : run.failure = some (.write cause) → run.changes <+: whole.changes →
      Follows whole run

namespace Follows

/-- What was told is the beginning of what the other run has told, at the least. -/
theorem isPrefix (h : Follows whole run) : run.changes <+: whole.changes := by
  cases h with
  | same _ hchanges => exact hchanges ▸ List.prefix_rfl
  | shorter _ hprefix => exact hprefix

/-- A run that comes to the end is like the other one. -/
theorem of_failure_eq_none (h : Follows whole run) (hfailure : run.failure = none) :
    whole.failure = none ∧ run.changes = whole.changes := by
  cases h with
  | same heq hchanges => exact ⟨heq ▸ hfailure, hchanges⟩
  | shorter hwrite =>
    rw [hfailure] at hwrite
    cases hwrite

/-- Calls that were made before both runs make no difference. -/
theorem afterCalls (h : Follows whole run) {calls : List (Sighting σ)} {others : List (Sighting τ)}
    (heq : calls.map (·.change) = others.map (·.change)) :
    Follows (whole.afterCalls others) (run.afterCalls calls) := by
  have hchanges : ∀ {σ : Type} (calls : List (Sighting σ)) (run : Run σ),
      (run.afterCalls calls).changes = calls.map (·.change) ++ run.changes :=
    fun calls run ↦ List.map_append
  cases h with
  | same hfailure hsame =>
    refine .same hfailure ?_
    rw [hchanges, hchanges, heq, hsame]
  | shorter hfailure hprefix =>
    refine .shorter hfailure ?_
    rw [hchanges, hchanges, heq]
    exact (List.prefix_append_right_inj _).2 hprefix

end Follows

/-- The change of a line does not depend on the writer. -/
theorem changes_callsAt (number : Nat) (line : Text) (writer : σ) (other : τ) :
    (callsAt table number line writer).map (·.change) =
      (callsAt table number line other).map (·.change) := by
  unfold callsAt
  cases table.apply line <;> rfl

variable [Writer σ] [Writer τ] {usable : τ → Prop}

/-- A run follows the one over the same lines before a writer that never fails. -/
theorem edit_follows (hnever : Writer.NeverFails usable) {number : Nat}
    {told collected : List Change} {writer : σ} {other : τ} (hother : usable other)
    (lines : List (Except Cause Text)) :
    Follows (edit table observer number told collected lines other)
      (edit table observer number told collected lines writer) := by
  induction lines generalizing number told collected writer other with
  | nil => exact .same rfl rfl
  | cons first rest ih =>
    cases first with
    | error cause => exact .same rfl rfl
    | ok line =>
      by_cases hadmits : Admits table observer told number line
      · have hcalls : (callsAt table number line writer).map (·.change) =
            (callsAt table number line other).map (·.change) := changes_callsAt ..
        obtain ⟨next, hnext, husable⟩ := hnever other (Text.utf8 (table.edited line)) hother
        rw [edit_admitted hadmits, edit_admitted hadmits, hnext]
        -- The other writer takes the line, and this one does or ends the run here.
        cases hwrite : Writer.write writer (Text.utf8 (table.edited line)) with
        | mk stopped failure =>
          cases failure with
          | some cause =>
            refine .shorter rfl ?_
            show (callsAt table number line writer).map (·.change) <+: _
            rw [hcalls]
            exact ⟨_, List.map_append.symm⟩
          | none =>
            rw [hcalls]
            exact (ih husable).afterCalls hcalls
      · obtain ⟨new, fault, happly, hfault⟩ := exists_fault_of_not_admits hadmits
        rw [edit_stopped happly hfault, edit_stopped happly hfault]
        exact .same rfl rfl

theorem editAll_follows (hnever : Writer.NeverFails usable) {writer : σ} {other : τ}
    (hother : usable other) (reader : Reader) :
    Follows (editAll table observer reader other) (editAll table observer reader writer) :=
  edit_follows hnever hother reader.lines

end LineMigration.Stream
