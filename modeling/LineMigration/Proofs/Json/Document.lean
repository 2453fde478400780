import LineMigration.Proofs.Json.Parts

/-!
# Reading a document back

A value is read as it is printed, in every layout that puts nothing but spaces between the parts
(`readValue_print`); so a document that holds one value and spaces is that value (`read_print`), and
different values are printed differently. The fuel of the reader lasts, as each of its steps goes
with a character of the text.
-/

namespace LineMigration.Json

/-- A layout puts nothing but spaces between the parts of a value. -/
structure Layout.IsSpaced (layout : Layout) : Prop where
  lineBreak : ∀ depth, ∀ c ∈ layout.lineBreak depth, isSpace c = true
  colon : ∃ spaces, layout.colon = ':' :: spaces ∧ ∀ c ∈ spaces, isSpace c = true

theorem Layout.isSpaced_indented : Layout.indented.IsSpaced := by
  refine ⟨fun depth c hmem ↦ ?_, [' '], rfl, fun c hmem ↦ ?_⟩
  · rcases List.mem_cons.1 hmem with rfl | hspace
    · rfl
    · rw [List.eq_of_mem_replicate hspace]
      rfl
  · rw [List.mem_singleton.1 hmem]
    rfl

variable {layout : Layout} {depth fuel : Nat} {c : Char} {rest : Text}

/-! ## First characters -/

/-- What a number begins with begins nothing else. -/
theorem not_mem_of_numeral (h : c.isDigit = true ∨ c = '-') :
    c ∉ ['n', 't', 'f', '"', '[', '{', ']', ' ', '\t', '\n', '\r'] := by
  have hothers : ∀ other ∈ ['n', 't', 'f', '"', '[', '{', ']', ' ', '\t', '\n', '\r'],
      other.isDigit = false ∧ other ≠ '-' := by simp [Char.isDigit]
  intro hmem
  obtain ⟨hdigit, hminus⟩ := hothers c hmem
  rcases h with h | h
  · rw [hdigit] at h
    cases h
  · exact hminus h

/-- A number begins with a character that is neither a space nor the end of an array. -/
theorem exists_cons_numeral (numeral : Numeral) :
    ∃ c others, numeralText numeral = c :: others ∧ isSpace c = false ∧ c ≠ ']' := by
  obtain ⟨c, others, hnumeral, hc⟩ := exists_cons_numeralText numeral
  have hother := not_mem_of_numeral hc
  simp only [List.mem_cons, List.not_mem_nil, not_or] at hother
  exact ⟨c, others, hnumeral, by simp [isSpace, hother], by simp [hother]⟩

/-- So does every value. -/
theorem exists_cons_print (layout : Layout) (depth : Nat) (value : Json) :
    ∃ c others, print layout depth value = c :: others ∧ isSpace c = false ∧ c ≠ ']' := by
  cases value with
  | null => exact ⟨_, _, by rw [print], rfl, by decide⟩
  | bool b => cases b <;> exact ⟨_, _, by rw [print], rfl, by decide⟩
  | number i =>
    obtain ⟨c, others, hnumeral, hc⟩ := exists_cons_numeral (.ofInt i)
    exact ⟨c, others, by rw [print, hnumeral], hc⟩
  | decimal value =>
    obtain ⟨c, others, hnumeral, hc⟩ := exists_cons_numeral value.toNumeral
    exact ⟨c, others, by rw [print, hnumeral], hc⟩
  | string t => exact ⟨_, _, by rw [print, quoted], rfl, by decide⟩
  | array items => cases items <;> exact ⟨_, _, by rw [print], rfl, by decide⟩
  | object fields =>
    cases fields with
    | nil => exact ⟨_, _, by rw [print], rfl, by decide⟩
    | cons field fields => exact ⟨_, _, by rw [print], rfl, by decide⟩

/-- Spaces before a value are passed over, and no more. -/
theorem skipSpaces_print {spaces : Text} (h : ∀ c ∈ spaces, isSpace c = true) (value : Json) :
    skipSpaces (spaces ++ (print layout depth value ++ rest)) =
      print layout depth value ++ rest := by
  obtain ⟨c, others, hprint, hc, -⟩ := exists_cons_print layout depth value
  rw [skipSpaces_append h, hprint, List.cons_append, skipSpaces_cons hc]

theorem skipSpaces_quoted {spaces : Text} (h : ∀ c ∈ spaces, isSpace c = true) (name rest : Text) :
    skipSpaces (spaces ++ (quoted name ++ rest)) = quoted name ++ rest := by
  rw [skipSpaces_append h, quoted, List.cons_append, skipSpaces_cons rfl]

/-- After an item comes a comma or the end of the array, after spaces. -/
theorem endsNumber_append {spaces : Text} (h : ∀ c ∈ spaces, isSpace c = true)
    (hrest : EndsNumber rest) : EndsNumber (spaces ++ rest) := by
  cases spaces with
  | nil => exact hrest
  | cons space spaces =>
    rintro asked hasked
    cases hasked
    have hspace := h space List.mem_cons_self
    simp only [isSpace, Bool.or_eq_true, decide_eq_true_eq] at hspace
    rcases hspace with ((rfl | rfl) | rfl) | rfl <;> decide

theorem endsNumber_cons (h : c ∈ [',', ']', '}']) : EndsNumber (c :: rest) := by
  have hends : ∀ c ∈ [',', ']', '}'], c.isDigit = false ∧ c ≠ '.' ∧ c ≠ 'e' ∧ c ≠ 'E' := by
    simp [Char.isDigit]
  rintro asked hasked
  cases hasked
  exact hends c h

theorem endsNumber_printItems (hlayout : layout.IsSpaced) (items : List Json) :
    EndsNumber (printItems layout depth items ++ rest) := by
  cases items with
  | nil =>
    rw [printItems, List.append_assoc]
    exact endsNumber_append (hlayout.lineBreak depth) (endsNumber_cons (by decide))
  | cons item items =>
    rw [printItems]
    exact endsNumber_cons (by decide)

theorem endsNumber_printFields (hlayout : layout.IsSpaced) (fields : List (Text × Json)) :
    EndsNumber (printFields layout depth fields ++ rest) := by
  cases fields with
  | nil =>
    rw [printFields, List.append_assoc]
    exact endsNumber_append (hlayout.lineBreak depth) (endsNumber_cons (by decide))
  | cons field fields =>
    rw [printFields]
    exact endsNumber_cons (by decide)

/-! ## Values -/

/-- A number is read where no other value begins. -/
theorem readValue_numeralText (numeral : Numeral) (h : EndsNumber rest) :
    readValue (fuel + 1) (numeralText numeral ++ rest) = some (ofNumeral numeral, rest) := by
  obtain ⟨c, others, hnumeral, hc⟩ := exists_cons_numeralText numeral
  have hother := not_mem_of_numeral hc
  simp only [List.mem_cons, List.not_mem_nil, not_or] at hother
  have hread := readNumeral_text numeral h
  rw [hnumeral, List.cons_append] at hread ⊢
  rw [readValue.eq_def]
  split <;> simp_all

/-- An array that does not end at once has items. -/
theorem readValue_array {others : Text} (h : skipSpaces rest = c :: others) (hc : c ≠ ']') :
    readValue (fuel + 1) ('[' :: rest) =
      (readItems fuel (skipSpaces rest)).map fun (values, after) ↦ (.array values, after) := by
  rw [readValue, h]
  split
  · next heq =>
    cases heq
    exact absurd rfl hc
  · rfl

/-- An object that does not end at once has fields. -/
theorem readValue_object {others : Text} (h : skipSpaces rest = c :: others) (hc : c ≠ '}') :
    readValue (fuel + 1) ('{' :: rest) =
      (readFields fuel (skipSpaces rest)).map fun (values, after) ↦ (.object values, after) := by
  rw [readValue, h]
  split
  · next heq =>
    cases heq
    exact absurd rfl hc
  · rfl

/-- A field whose value is read is the last of its object or stands before others. -/
theorem readFields_quoted (hlayout : layout.IsSpaced) (name : Text) {value : Json}
    {afterValue : Text}
    (hvalue : readValue fuel (print layout depth value ++ rest) = some (value, afterValue)) :
    let fields :=
      readFields (fuel + 1) (quoted name ++ (layout.colon ++ (print layout depth value ++ rest)))
    (∀ after, skipSpaces afterValue = '}' :: after → fields = some ([(name, value)], after)) ∧
      ∀ more others after, skipSpaces afterValue = ',' :: more →
        readFields fuel (skipSpaces more) = some (others, after) →
        fields = some ((name, value) :: others, after) := by
  obtain ⟨spaces, hcolon, hspaces⟩ := hlayout.colon
  have hskip : skipSpaces (spaces ++ (print layout depth value ++ rest)) = _ :=
    skipSpaces_print hspaces value
  simp only [quoted, readFields, readString_flatMap_escape, hcolon, List.cons_append,
    List.append_assoc, List.nil_append, skipSpaces_cons (c := ':') rfl, hskip, hvalue]
  refine ⟨fun after hlast ↦ ?_, fun more others after hmore hothers ↦ ?_⟩
  · simp [hlast]
  · simp [hmore, hothers]

mutual

/-- A value is read as it is printed. -/
theorem readValue_print (hlayout : layout.IsSpaced) : (value : Json) → (depth fuel : Nat) →
    (rest : Text) → (print layout depth value).length ≤ fuel → EndsNumber rest →
    readValue fuel (print layout depth value ++ rest) = some (value, rest)
  | value, depth, 0, rest, hfuel, _ => by
    obtain ⟨c, others, hprint, -⟩ := exists_cons_print layout depth value
    rw [hprint] at hfuel
    cases hfuel
  | .null, depth, fuel + 1, rest, _, _ => by simp [print, readValue]
  | .bool true, depth, fuel + 1, rest, _, _ => by simp [print, readValue]
  | .bool false, depth, fuel + 1, rest, _, _ => by simp [print, readValue]
  | .number i, depth, fuel + 1, rest, _, hrest => by
    rw [print, readValue_numeralText _ hrest, ofNumeral_ofInt]
  | .decimal value, depth, fuel + 1, rest, _, hrest => by
    rw [print, readValue_numeralText _ hrest, ofNumeral_toNumeral]
  | .string t, depth, fuel + 1, rest, _, _ => by
    simp [print, quoted, readValue, readString_flatMap_escape]
  | .array [], depth, fuel + 1, rest, _, _ => by
    simp [print, readValue, skipSpaces_cons (c := ']') rfl]
  | .array (item :: items), depth, fuel + 1, rest, hfuel, _ => by
    simp only [print, List.length_cons, List.length_append] at hfuel
    obtain ⟨c, others, hprint, -, hc⟩ := exists_cons_print layout (depth + 1) item
    have hskip : skipSpaces (layout.lineBreak (depth + 1) ++
        (print layout (depth + 1) item ++ (printItems layout depth items ++ rest))) = _ :=
      skipSpaces_print (hlayout.lineBreak (depth + 1)) item
    have hitems := readItems_print hlayout item items depth fuel rest (by omega)
    simp only [print, List.cons_append, List.append_assoc]
    rw [readValue_array (by rw [hskip, hprint, List.cons_append]) hc, hskip, hitems]
    rfl
  | .object [], depth, fuel + 1, rest, _, _ => by
    simp [print, readValue, skipSpaces_cons (c := '}') rfl]
  | .object ((name, value) :: fields), depth, fuel + 1, rest, hfuel, _ => by
    simp only [print, List.length_cons, List.length_append] at hfuel
    have hskip : ∀ after, skipSpaces (layout.lineBreak (depth + 1) ++ (quoted name ++ after)) =
        quoted name ++ after := skipSpaces_quoted (hlayout.lineBreak (depth + 1)) name
    have hfields := readFields_print hlayout name value fields depth fuel rest (by simp; omega)
    simp only [print, List.cons_append, List.append_assoc] at hfields ⊢
    rw [readValue_object (by rw [hskip, quoted, List.cons_append]) (by decide), hskip, hfields]
    rfl
termination_by value => sizeOf value

/-- The items of an array are read up to its end. -/
theorem readItems_print (hlayout : layout.IsSpaced) : (item : Json) → (items : List Json) →
    (depth fuel : Nat) → (rest : Text) →
    (print layout (depth + 1) item).length + (printItems layout depth items).length ≤ fuel →
    readItems fuel (print layout (depth + 1) item ++ (printItems layout depth items ++ rest)) =
      some (item :: items, rest)
  | item, items, depth, 0, rest, hfuel => by
    obtain ⟨c, others, hprint, -⟩ := exists_cons_print layout (depth + 1) item
    rw [hprint, List.length_cons] at hfuel
    omega
  | item, [], depth, fuel + 1, rest, hfuel => by
    simp only [printItems, List.length_append, List.length_singleton] at hfuel
    have hitem := readValue_print hlayout item (depth + 1) fuel
      (printItems layout depth [] ++ rest) (by omega) (endsNumber_printItems hlayout [])
    rw [readItems, hitem]
    simp [printItems, skipSpaces_append (hlayout.lineBreak depth), skipSpaces_cons (c := ']') rfl]
  | item, next :: items, depth, fuel + 1, rest, hfuel => by
    simp only [printItems, List.length_cons, List.length_append] at hfuel
    obtain ⟨c, others, hprint, -⟩ := exists_cons_print layout (depth + 1) item
    have hlength : 0 < (print layout (depth + 1) item).length := by rw [hprint]; simp
    have hitem := readValue_print hlayout item (depth + 1) fuel
      (printItems layout depth (next :: items) ++ rest) (by omega)
      (endsNumber_printItems hlayout (next :: items))
    have hitems := readItems_print hlayout next items depth fuel rest (by omega)
    have hskip : skipSpaces (layout.lineBreak (depth + 1) ++
        (print layout (depth + 1) next ++ (printItems layout depth items ++ rest))) = _ :=
      skipSpaces_print (hlayout.lineBreak (depth + 1)) next
    rw [readItems, hitem]
    simp [printItems, skipSpaces_cons (c := ',') rfl, hskip, hitems]
termination_by item items => sizeOf item + sizeOf items

/-- The fields of an object are read up to its end. -/
theorem readFields_print (hlayout : layout.IsSpaced) : (name : Text) → (value : Json) →
    (fields : List (Text × Json)) → (depth fuel : Nat) → (rest : Text) →
    (quoted name ++ layout.colon ++ print layout (depth + 1) value).length +
      (printFields layout depth fields).length ≤ fuel →
    readFields fuel (quoted name ++ (layout.colon ++ (print layout (depth + 1) value ++
      (printFields layout depth fields ++ rest)))) = some ((name, value) :: fields, rest)
  | _, _, _, _, 0, _, hfuel => by simp [quoted] at hfuel
  | name, value, [], depth, fuel + 1, rest, hfuel => by
    simp only [printFields, List.length_append, List.length_singleton] at hfuel
    have hvalue := readValue_print hlayout value (depth + 1) fuel
      (printFields layout depth [] ++ rest) (by omega) (endsNumber_printFields hlayout [])
    refine (readFields_quoted hlayout name hvalue).1 rest ?_
    simp [printFields, skipSpaces_append (hlayout.lineBreak depth), skipSpaces_cons (c := '}') rfl]
  | name, value, (next, other) :: fields, depth, fuel + 1, rest, hfuel => by
    simp only [printFields, List.length_cons, List.length_append] at hfuel
    have hvalue := readValue_print hlayout value (depth + 1) fuel
      (printFields layout depth ((next, other) :: fields) ++ rest) (by omega)
      (endsNumber_printFields hlayout ((next, other) :: fields))
    have hfields := readFields_print hlayout next other fields depth fuel rest (by simp; omega)
    have hskip : ∀ after, skipSpaces (layout.lineBreak (depth + 1) ++ (quoted next ++ after)) =
        quoted next ++ after := skipSpaces_quoted (hlayout.lineBreak (depth + 1)) next
    refine (readFields_quoted hlayout name hvalue).2 _ _ rest ?_ (by rw [hskip, hfields])
    simp [printFields, skipSpaces_cons (c := ',') rfl]
termination_by _ value fields => sizeOf value + sizeOf fields

end

/-! ## Documents -/

/-- A document of one value, and spaces after it, is read as that value. -/
theorem read_print (hlayout : layout.IsSpaced) (value : Json) (depth : Nat) {spaces : Text}
    (hspaces : ∀ c ∈ spaces, isSpace c = true) :
    read (print layout depth value ++ spaces) = some value := by
  have hstart : skipSpaces (print layout depth value ++ spaces) =
      print layout depth value ++ spaces := by
    obtain ⟨c, others, hprint, hc, -⟩ := exists_cons_print layout depth value
    rw [hprint, List.cons_append, skipSpaces_cons hc]
  have hends : EndsNumber spaces := by
    have hnil : EndsNumber [] := fun c hc ↦ by cases hc
    simpa using endsNumber_append hspaces hnil
  have hvalue : readValue ((print layout depth value ++ spaces).length + 1)
      (print layout depth value ++ spaces) = some (value, spaces) :=
    readValue_print hlayout value depth _ spaces (by simp; omega) hends
  have hrest : skipSpaces spaces = [] := by simpa using skipSpaces_append (t := []) hspaces
  rw [read, hstart, hvalue]
  simp [hrest]

/-- A value is read as it is printed over lines, be there spaces after it or not. -/
theorem read_pretty (value : Json) {spaces : Text} (hspaces : ∀ c ∈ spaces, isSpace c = true) :
    read (value.pretty ++ spaces) = some value :=
  read_print Layout.isSpaced_indented value 0 hspaces

end LineMigration.Json
