import Mathlib.Tactic.Common
import LineMigration.Table.Scan
import LineMigration.Table.Shipped

/-!
# Tables whose entries do not meet

What one entry puts into a line can meet a later key in three ways: the key may be in the new
text, it may begin at the end of the new text and go on behind it, or it may begin before the new
text and go on into it. In a line in which every key is delimited, a key that goes on into a new
text does so behind a character that is no letter; `Text.joints` are the parts of a key that stand
behind such a character. `Table.Separate` rules out all three ways by a test of every two entries,
and `Table.separate_v3` says that the shipped table passes it.
-/

namespace LineMigration

open Table (isLetter?)

namespace Text

variable {key text before after : Text}

/-! ## Parts of texts -/

/-- What is left of a key behind a text with which it agrees as far as both go. -/
def overhang : Text → Text → Option Text
  | key, [] => some key
  | [], _ :: _ => some []
  | k :: key, c :: text => if k = c then overhang key text else none

/-- A key at the beginning of two texts goes on into the second by what the first leaves of it. -/
theorem exists_overhang_of_isPrefix (h : key <+: text ++ after) :
    ∃ beyond, overhang key text = some beyond ∧ beyond <+: after := by
  induction text generalizing key with
  | nil => exact ⟨key, by cases key <;> rfl, h⟩
  | cons c text ih =>
    cases key with
    | nil => exact ⟨[], rfl, List.nil_prefix⟩
    | cons k key =>
      obtain ⟨rfl, hrest⟩ := List.cons_prefix_cons.1 h
      simpa [overhang] using ih hrest

/-- The ends of a text that begin with a character. -/
def endsFrom (first : Char) : Text → List Text
  | [] => []
  | c :: rest => if c = first then (c :: rest) :: endsFrom first rest else endsFrom first rest

/-- An end of a text is among those that begin with its first character. -/
theorem mem_endsFrom (before : Text) (first : Char) (rest : Text) :
    first :: rest ∈ endsFrom first (before ++ first :: rest) := by
  induction before with
  | nil => simp [endsFrom]
  | cons c before ih =>
    rw [List.cons_append, endsFrom]
    split
    · exact List.mem_cons_of_mem _ ih
    · exact ih

/-- A key that begins at an end of a text, which is then one of those that begin as the key does,
goes on behind the text by what this end leaves of it. -/
theorem exists_end_of_isPrefix (hkey : key ≠ []) {tail : Text} (htail : tail ≠ [])
    (h : key <+: tail ++ after) :
    ∃ first ∈ key.head?, tail ∈ endsFrom first (before ++ tail) ∧
      ∃ beyond ∈ overhang key tail, beyond <+: after := by
  obtain ⟨beyond, hover, hbehind⟩ := exists_overhang_of_isPrefix h
  obtain ⟨first, tail, rfl⟩ := List.exists_cons_of_ne_nil htail
  have hfirst : first ∈ key.head? := by
    rcases List.prefix_cons_iff.1 h with hnil | ⟨part, hsplit, -⟩
    · exact absurd hnil hkey
    · simp [hsplit]
  exact ⟨first, hfirst, mem_endsFrom before first tail, beyond, hover, hbehind⟩

/-- The ends of a text that stand behind a character that is no letter, the empty end left out. -/
def joints : Text → List Text
  | [] => []
  | c :: rest => if c.isAlpha = false ∧ rest ≠ [] then rest :: joints rest else joints rest

/-- What stands behind a beginning that does not end with a letter is among the joints. -/
theorem mem_joints (hbefore : before ≠ []) (hletter : isLetter? before.getLast? = false)
    (hafter : after ≠ []) : after ∈ joints (before ++ after) := by
  induction before with
  | nil => exact absurd rfl hbefore
  | cons c before ih =>
    cases before with
    | nil =>
      have hc : c.isAlpha = false := by simpa [isLetter?] using hletter
      simp [joints, hc, hafter]
    | cons d before =>
      have hmem := ih (List.cons_ne_nil _ _) (by simpa using hletter)
      rw [List.cons_append, joints]
      split
      · exact List.mem_cons_of_mem _ hmem
      · exact hmem

end Text

open Text (overhang endsFrom joints)

/-! ## Two entries -/

/-- The later of two entries finds nothing in what the earlier one made, and the earlier one finds
nothing within the key of the later one. -/
structure Entry.StaysClearOf (later earlier : Entry) : Prop where
  /-- Wherever the key may begin in the new text it has to go on behind it by a letter, and the
  key that the new text took the place of ends with a letter. -/
  inside : ∀ first ∈ later.key.head?, ∀ tail ∈ endsFrom first earlier.text,
    ∀ beyond ∈ overhang later.key tail,
      isLetter? beyond.head? = true ∧ isLetter? earlier.key.getLast? = true
  /-- Behind a character that is no letter, the key does not go on as the new text begins. -/
  into : ∀ part ∈ joints later.key, overhang part earlier.text = none
  /-- Behind a character that is no letter, the key does not go on as the other key begins. -/
  apart : ∀ part ∈ joints later.key, overhang earlier.key part = none

instance (later earlier : Entry) : Decidable (later.StaysClearOf earlier) :=
  decidable_of_iff
    ((later.key.head?.all fun first ↦ ∀ tail ∈ endsFrom first earlier.text,
        ∀ beyond ∈ overhang later.key tail,
          isLetter? beyond.head? = true ∧ isLetter? earlier.key.getLast? = true) = true ∧
      (∀ part ∈ joints later.key, overhang part earlier.text = none) ∧
      ∀ part ∈ joints later.key, overhang earlier.key part = none)
    ⟨fun ⟨inside, into, apart⟩ ↦ ⟨by simpa [Option.all_eq_true] using inside, into, apart⟩,
      fun h ↦ ⟨by simpa [Option.all_eq_true] using h.inside, h.into, h.apart⟩⟩

/-! ## Tables -/

namespace Table

/-- No key is empty, a new text begins with a letter only where its key does, and later entries
stay clear of earlier ones. -/
structure Separate (table : Table) : Prop where
  key_ne_nil : ∀ entry ∈ table, entry.key ≠ []
  head : ∀ entry ∈ table, isLetter? entry.key.head? = false →
    entry.text ≠ [] ∧ isLetter? entry.text.head? = false
  clear : table.Pairwise fun earlier later ↦ later.StaysClearOf earlier

instance (table : Table) : Decidable table.Separate :=
  decidable_of_iff
    ((∀ entry ∈ table, entry.key ≠ []) ∧
      (∀ entry ∈ table, isLetter? entry.key.head? = false →
        entry.text ≠ [] ∧ isLetter? entry.text.head? = false) ∧
      table.Pairwise fun earlier later ↦ later.StaysClearOf earlier)
    ⟨fun ⟨keys, heads, clear⟩ ↦ ⟨keys, heads, clear⟩,
      fun h ↦ ⟨h.key_ne_nil, h.head, h.clear⟩⟩

/-- No key goes on, behind a character that is no letter, as a text of an earlier entry begins. -/
theorem Separate.into {done later : Table} {entry : Entry}
    (h : Separate (done ++ entry :: later)) :
    ∀ found ∈ done, ∀ part ∈ joints entry.key, overhang part found.text = none :=
  fun found hfound ↦
    ((List.pairwise_append.1 h.clear).2.2 found hfound entry List.mem_cons_self).into

/-- The entries of the shipped table do not meet. -/
theorem separate_v3 : v3.Separate := by
  unfold v3
  repeat rw [Entry.of_ofList]
  decide +kernel

end Table

end LineMigration
