/-!
# Text and bytes

A `Text` is a list of Unicode scalar values and `Bytes` is what files and streams hold. Keys,
paths, messages and log lines are all `Text`; `LineMigration.Text.Utf8` goes between the two.

`trimEnd` removes a trailing run. Read `trimEnd_append_trailing` first: what is removed and
what is kept together are the list.
-/

namespace LineMigration

/-- A text is the list of its Unicode scalar values. -/
abbrev Text := List Char

/-- The content of a file or of a stream. -/
abbrev Bytes := List UInt8

/-- The decimal digits of a number, without leading zeros. -/
def Text.decimal (n : Nat) : Text := Nat.toDigits 10 n

/-! ## Trailing runs -/

variable {α : Type}

/-- The list without its longest trailing run of elements that satisfy `p`. -/
def trimEnd (p : α → Bool) (xs : List α) : List α := (xs.reverse.dropWhile p).reverse

/-- The longest trailing run of elements that satisfy `p`. -/
def trailing (p : α → Bool) (xs : List α) : List α := (xs.reverse.takeWhile p).reverse

/-- Nothing is lost: the kept part followed by the trailing run is the list. -/
theorem trimEnd_append_trailing (p : α → Bool) (xs : List α) :
    trimEnd p xs ++ trailing p xs = xs := by
  unfold trimEnd trailing
  rw [← List.reverse_append, List.takeWhile_append_dropWhile, List.reverse_reverse]

end LineMigration
