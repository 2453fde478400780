import Mathlib.Tactic.Common
import LineMigration.Text.Replace

/-!
# Replacement beside a character that no key has

A character that is not in the key parts a text: no occurrence of the key reaches over it, so
occurrence and replacement go on behind it as if the text began there. For the line feed this is
why a text may be edited line by line.

Read `replaceAll_append_cons` first.
-/

namespace LineMigration.Text

variable {key new before text rest : Text} {wall : Char}

/-- A key without the wall begins a text exactly if it ends before the wall. -/
theorem isPrefixOf_append_cons (before rest : Text) (hwall : wall ∉ key) :
    key.isPrefixOf (before ++ wall :: rest) = key.isPrefixOf before := by
  induction key generalizing before with
  | nil => cases before <;> rfl
  | cons k key ih =>
    simp only [List.mem_cons, not_or] at hwall
    cases before with
    | nil => simp [List.isPrefixOf, Ne.symm hwall.1]
    | cons c before => simp [List.isPrefixOf, ih before hwall.2]

/-- A key without the wall occurs before the wall or behind it. -/
theorem occursIn_append_cons (hwall : wall ∉ key) :
    occursIn key (before ++ wall :: rest) = (occursIn key before || occursIn key rest) := by
  induction before with
  | nil =>
    cases key with
    | nil => simp
    | cons k key =>
      simp only [List.mem_cons, not_or] at hwall
      simp [occursIn, List.isPrefixOf, Ne.symm hwall.1]
  | cons c before ih =>
    have hprefix := isPrefixOf_append_cons (c :: before) rest hwall
    rw [List.cons_append] at hprefix ⊢
    simp only [occursIn, hprefix, ih, Bool.or_assoc]

/-- The scan stops at the wall and starts again behind it; what it has to pass over ends before
the wall. -/
theorem replaceFrom_append_cons (hkey : key ≠ []) (hwall : wall ∉ key) {skip : Nat}
    (hskip : skip ≤ before.length) :
    replaceFrom key new skip (before ++ wall :: rest) =
      replaceFrom key new skip before ++ wall :: replaceFrom key new 0 rest := by
  induction before generalizing skip with
  | nil =>
    obtain rfl : skip = 0 := by simpa using hskip
    have hprefix : key.isPrefixOf (wall :: rest) = false := by
      cases key with
      | nil => exact absurd rfl hkey
      | cons k key =>
        simp only [List.mem_cons, not_or] at hwall
        simp [List.isPrefixOf, Ne.symm hwall.1]
    simp [replaceFrom, hprefix]
  | cons c before ih =>
    cases skip with
    | succ skip => exact ih (by simpa using hskip)
    | zero =>
      have hprefix := isPrefixOf_append_cons (c :: before) rest hwall
      rw [List.cons_append] at hprefix ⊢
      simp only [replaceFrom, hprefix]
      -- A key that occurs here ends before the wall, so what has to be skipped does too.
      split
      · next hoccurs =>
        have hlength : key.length ≤ before.length + 1 := by
          simpa using (List.isPrefixOf_iff_prefix.1 hoccurs).length_le
        rw [ih (by omega), List.append_assoc]
      · rw [ih (Nat.zero_le _), List.cons_append]

/-- A key that stands here gives the new text, and the scan goes on behind it. -/
theorem replaceFrom_key_append (hkey : key ≠ []) (rest : Text) :
    replaceFrom key new 0 (key ++ rest) = new ++ replaceFrom key new 0 rest := by
  cases key with
  | nil => exact absurd rfl hkey
  | cons k key =>
    have hoccurs : (k :: key).isPrefixOf (k :: (key ++ rest)) = true :=
      List.isPrefixOf_iff_prefix.2 (List.prefix_append (k :: key) rest)
    simp [replaceFrom, hoccurs, replaceFrom_eq_drop _ _ key.length]

/-- A text in which the key begins nowhere is copied, with what follows taken into account. -/
theorem replaceFrom_append_of_forall
    (h : ∀ before after, text = before ++ after → after ≠ [] → ¬ key <+: after ++ rest) :
    replaceFrom key new 0 (text ++ rest) = text ++ replaceFrom key new 0 rest := by
  induction text with
  | nil => rfl
  | cons c text ih =>
    have hhere : key.isPrefixOf (c :: (text ++ rest)) = false := by
      rw [Bool.eq_false_iff, Ne, List.isPrefixOf_iff_prefix]
      exact h [] (c :: text) rfl (List.cons_ne_nil _ _)
    have hrest := ih fun before after hsplit ↦ h (c :: before) after (by rw [hsplit]; rfl)
    simp [replaceFrom, hhere, hrest]

/-- A character of neither text is not in the result of a scan. -/
theorem not_mem_replaceFrom {c : Char} (hnew : c ∉ new) (htext : c ∉ text) (skip : Nat) :
    c ∉ replaceFrom key new skip text := by
  induction text generalizing skip with
  | nil => cases skip <;> exact List.not_mem_nil
  | cons first rest ih =>
    rw [List.mem_cons, not_or] at htext
    cases skip with
    | succ skip => exact ih htext.2 skip
    | zero =>
      simp only [replaceFrom]
      split
      · rw [List.mem_append, not_or]
        exact ⟨hnew, ih htext.2 _⟩
      · rw [List.mem_cons, not_or]
        exact ⟨htext.1, ih htext.2 0⟩

/-- Replacement puts no character that is in neither text, also if the key is empty. -/
theorem not_mem_replaceAll {c : Char} (hnew : c ∉ new) (htext : c ∉ text) :
    c ∉ replaceAll key new text := by
  unfold replaceAll
  split
  · simp only [List.mem_append, List.mem_flatMap, List.mem_cons, not_or, not_exists, not_and]
    refine ⟨hnew, fun other hother ↦ ⟨?_, hnew⟩⟩
    rintro rfl
    exact htext hother
  · exact not_mem_replaceFrom hnew htext 0

/-- Replacement on both sides of a wall is replacement on each. -/
theorem replaceAll_append_cons (hkey : key ≠ []) (hwall : wall ∉ key) :
    replaceAll key new (before ++ wall :: rest) =
      replaceAll key new before ++ wall :: replaceAll key new rest := by
  have hempty : key.isEmpty = false := by simpa using hkey
  simp only [replaceAll, hempty]
  exact replaceFrom_append_cons hkey hwall (Nat.zero_le _)

end LineMigration.Text
