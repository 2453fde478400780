import Mathlib.Data.List.DropRight
import LineMigration.Text.Basic

/-!
# Trimming

Trimming is `List.rdropWhile`, and the trailing run is `List.rtakeWhile`. What is left of a list
does not end with an element that is trimmed (`getLast?_trimEnd`), and nothing else is lost
(`forall_mem_trailing`).
-/

namespace LineMigration

variable {α : Type} {p : α → Bool}

theorem trimEnd_eq_rdropWhile (p : α → Bool) (xs : List α) : trimEnd p xs = xs.rdropWhile p := rfl

theorem trailing_eq_rtakeWhile (p : α → Bool) (xs : List α) : trailing p xs = xs.rtakeWhile p := rfl

/-- Trimming keeps a beginning of the list. -/
theorem trimEnd_isPrefix (p : α → Bool) (xs : List α) : trimEnd p xs <+: xs :=
  List.rdropWhile_prefix p xs

/-- What is trimmed satisfies `p`. -/
theorem forall_mem_trailing (xs : List α) : ∀ a ∈ trailing p xs, p a = true :=
  fun _ ↦ List.mem_rtakeWhile_imp

/-- A trailing run of elements that satisfy `p` is trimmed whole. -/
theorem trimEnd_append_of_forall {run : List α} (hrun : ∀ a ∈ run, p a = true) (xs : List α) :
    trimEnd p (xs ++ run) = trimEnd p xs := by
  induction run using List.reverseRecOn with
  | nil => rw [List.append_nil]
  | append_singleton run a ih =>
    rw [← List.append_assoc, trimEnd_eq_rdropWhile,
      List.rdropWhile_concat_pos _ _ a (hrun a (by simp))]
    exact ih fun b hb ↦ hrun b (List.mem_append_left _ hb)

/-- Only a last element that satisfies `p` makes trimming necessary. -/
theorem trimEnd_eq_self {xs : List α} (h : ∀ a ∈ xs.getLast?, p a = false) :
    trimEnd p xs = xs := by
  rw [trimEnd_eq_rdropWhile, List.rdropWhile_eq_self_iff]
  intro hne
  simp [h _ (List.getLast_mem_getLast? hne)]

/-- A list that ends in something else has no trailing run. -/
theorem trimEnd_concat {last : α} (h : p last = false) (xs : List α) :
    trimEnd p (xs ++ [last]) = xs ++ [last] :=
  trimEnd_eq_self (by simpa using h)

/-- What is kept does not end with an element that satisfies `p`. -/
theorem getLast?_trimEnd (xs : List α) : ∀ a ∈ (trimEnd p xs).getLast?, p a = false := by
  intro a ha
  obtain ⟨hne, rfl⟩ := List.mem_getLast?_eq_getLast ha
  exact Bool.eq_false_iff.2 (List.rdropWhile_last_not p xs hne)

end LineMigration
