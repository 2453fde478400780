import LineMigration.Command.Arguments

/-!
# What a command line asks for

`fileOf?` is the FILE that a command line names and `asksJson` whether it asks for JSON; neither
is there where it cannot be understood, or asks for help. JSON is asked for by the word `--json`
and by nothing else (`asksJson_eq_false_of_not_mem`).
-/

namespace LineMigration.Command

variable {arguments settled longer result : Arguments} {optionsEnded : Bool} {flag : Flag}
  {word name text : Text} {words : List Text}

/-- The FILE of a command line that is one of a run. -/
def fileOf? (words : List Text) : Option Text :=
  match parse words with
  | .ok (.run arguments) => arguments.file
  | _ => none

/-- Whether a command line is one of a run in JSON mode. -/
def asksJson (words : List Text) : Bool :=
  match parse words with
  | .ok (.run arguments) => arguments.json
  | _ => false

/-! ## Words -/

/-- A text without a value is all name. -/
theorem eq_of_splitValue (h : splitValue text = (name, none)) : text = name := by
  induction text generalizing name with
  | nil =>
    cases h
    rfl
  | cons c rest ih =>
    unfold splitValue at h
    split at h
    · cases h
    · cases hrest : splitValue rest with
      | mk found value =>
        rw [hrest] at h
        cases h
        rw [ih hrest]

/-- An option without a value is two dashes and its name. -/
theorem eq_of_ofWord_long (h : Token.ofWord word = .long name none) :
    word = "--".toList ++ name := by
  unfold Token.ofWord at h
  split at h
  · cases h
  · next rest _ =>
    cases hsplit : splitValue rest with
    | mk found value =>
      rw [hsplit] at h
      cases h
      rw [eq_of_splitValue hsplit]
      rfl
  · cases h
  · cases h

/-- An option is found by its name. -/
theorem Flag.name_of_ofName? (h : Flag.ofName? name = some flag) : flag.name.toList = name := by
  simpa using List.find?_some h

/-! ## The whole line -/

theorem settle_eq_ok (h : settle arguments = .ok settled) : settled = arguments := by
  unfold settle at h
  split at h
  · cases h
  · cases h
    rfl

/-- Only the option for JSON asks for it. -/
theorem json_of_set (h : arguments.set flag = .ok longer) (hjson : longer.json = true) :
    arguments.json = true ∨ flag = .json := by
  cases flag with
  | json => exact .inr rfl
  | dryRun | list =>
    simp only [Arguments.set] at h
    split at h
    · cases h
    · cases h
      exact .inl hjson
  | help | version =>
    cases h
    exact .inl hjson

/-- A line that asks for JSON has the word for it, unless it was asked for before. -/
theorem json_of_parseFrom (h : parseFrom arguments optionsEnded words = .ok (.run result))
    (hjson : result.json = true) : arguments.json = true ∨ "--json".toList ∈ words := by
  induction words generalizing arguments optionsEnded with
  | nil =>
    cases hsettle : settle arguments with
    | error complaint =>
      rw [parseFrom, hsettle] at h
      cases h
    | ok settled =>
      rw [parseFrom, hsettle] at h
      cases h
      exact .inl (settle_eq_ok hsettle ▸ hjson)
  | cons word rest ih =>
    -- What the rest asks for was asked for before it, which may be by this word.
    have hrest : ∀ {longer ended}, parseFrom longer ended rest = .ok (.run result) →
        (longer.json = true → arguments.json = true ∨ word = "--json".toList) →
        arguments.json = true ∨ "--json".toList ∈ word :: rest := by
      intro longer ended hparse hword
      rcases ih hparse with hlonger | hmem
      · rcases hword hlonger with harguments | rfl
        · exact .inl harguments
        · exact .inr List.mem_cons_self
      · exact .inr (List.mem_cons_of_mem _ hmem)
    have hnever : ∀ {other : Arguments → Invocation} {settled : Except UsageError Arguments},
        (∀ arguments, other arguments ≠ .run result) → settled.map other ≠ .ok (.run result) := by
      intro other settled hother heq
      cases settled with
      | error => cases heq
      | ok settled => exact hother settled (Except.ok.inj heq)
    unfold parseFrom at h
    split at h
    · split at h
      · cases h
      · exact hrest h .inl
    · exact hrest h .inl
    · split at h
      · exact absurd h (hnever fun _ heq ↦ by cases heq)
      · split at h
        · exact absurd h (hnever fun _ heq ↦ by cases heq)
        · cases h
    · next name value htoken =>
      split at h
      · cases h
      · cases h
      · exact absurd h (hnever fun _ heq ↦ by cases heq)
      · exact absurd h (hnever fun _ heq ↦ by cases heq)
      · next flag _ _ hflag =>
        split at h
        · cases h
        next settled hsettle =>
        split at h
        · cases h
        next longer hset =>
        refine hrest h fun hlonger ↦ ?_
        rw [settle_eq_ok hsettle] at hset
        rcases json_of_set hset hlonger with harguments | rfl
        · exact .inl harguments
        · -- The word is the option for JSON.
          split at htoken
          · cases htoken
          · rw [eq_of_ofWord_long htoken, ← Flag.name_of_ofName? hflag]
            exact .inr rfl

/-- A command line without the word for it does not ask for JSON. -/
theorem asksJson_eq_false_of_not_mem (h : "--json".toList ∉ words) : asksJson words = false := by
  unfold asksJson
  split
  · next arguments hparse =>
    cases hjson : arguments.json with
    | false => rfl
    | true =>
      rcases json_of_parseFrom hparse hjson with hbefore | hmem
      · cases hbefore
      · exact absurd hmem h
  · rfl

end LineMigration.Command
