import LineMigration.Proofs.Table.OnePass

/-!
# Where the characters of an edited line come from

A `Traced` character knows whether it was copied from the line or put there by an entry. `traced`
applies the entries of a table in order and keeps track of this; without the origins it is the line
as the table writes it (`plain_traced`). `Entry.hits` are the occurrences of a key that an entry
replaces. In a delimited line these are copied from the line, all of them: no entry of the shipped
table touches the text of an earlier one (`hits_v3_copied`). Where a letter stands beside a key,
one can (`hits_v3_beside_letter`).
-/

namespace LineMigration

/-- Where a character of an edited line comes from. -/
inductive Origin where
  /-- It was copied from the line. -/
  | line
  /-- It belongs to the text that an entry put. -/
  | put (entry : Entry)
  deriving DecidableEq

/-- A character and its origin. -/
structure Traced where
  char : Char
  origin : Origin
  deriving DecidableEq

namespace Traced

/-- The characters without their origins. -/
def plain (chars : List Traced) : Text := chars.map (·.char)

/-- Characters of one origin. -/
def ofText (origin : Origin) (text : Text) : List Traced := text.map (⟨·, origin⟩)

/-- What an entry meets from the left: a character that it copies, or an occurrence of its key,
which it replaces. -/
inductive Met where
  | kept (c : Traced)
  | hit (occurrence : List Traced)

/-- The occurrence that was met, if it is one. -/
def Met.occurrence? : Met → Option (List Traced)
  | .kept _ => none
  | .hit occurrence => some occurrence

/-- The way of an entry over traced characters; `skip` of them belong to an occurrence that was
met. Keys are not empty. -/
def meet (key : Text) : Nat → List Traced → List Met
  | _, [] => []
  | skip + 1, _ :: rest => meet key skip rest
  | 0, c :: rest =>
    if key.isPrefixOf (plain (c :: rest)) then
      .hit ((c :: rest).take key.length) :: meet key (key.length - 1) rest
    else .kept c :: meet key 0 rest

end Traced

open Traced (plain ofText meet Met)

/-- What an entry puts for what it meets: a kept character, or its own text for an occurrence. -/
def Entry.puts (entry : Entry) : Met → List Traced
  | .kept c => [c]
  | .hit _ => ofText (.put entry) entry.text

/-- Traced characters after an entry. -/
def Entry.trace (entry : Entry) (chars : List Traced) : List Traced :=
  if entry.key.isEmpty then
    ofText (.put entry) entry.text ++ chars.flatMap fun c ↦ c :: ofText (.put entry) entry.text
  else (meet entry.key 0 chars).flatMap entry.puts

/-- The occurrences of its key that an entry replaces. -/
def Entry.hits (entry : Entry) (chars : List Traced) : List (List Traced) :=
  (meet entry.key 0 chars).filterMap Met.occurrence?

/-- A line after the entries of a table, each character with its origin. -/
def Table.traced (table : Table) (line : Text) : List Traced :=
  table.foldl (fun chars entry ↦ entry.trace chars) (ofText .line line)

/-! ## Without the origins -/

namespace Traced

variable {key : Text} {entry : Entry} {chars rest : List Traced}

@[simp] theorem plain_append : plain (chars ++ rest) = plain chars ++ plain rest :=
  List.map_append

@[simp] theorem plain_ofText (origin : Origin) (text : Text) :
    plain (ofText origin text) = text := by
  simp [plain, ofText, Function.comp_def]

/-- Passing over `skip` characters is dropping them. -/
theorem meet_eq_drop (skip : Nat) (chars : List Traced) :
    meet key skip chars = meet key 0 (chars.drop skip) := by
  induction chars generalizing skip with
  | nil => simp [meet]
  | cons c rest ih =>
    cases skip with
    | zero => rfl
    | succ skip => simp [meet, ih skip]

/-- The way of an entry over traced characters is that of replacement over the plain ones. -/
theorem plain_flatMap_puts (entry : Entry) (skip : Nat) (chars : List Traced) :
    plain ((meet entry.key skip chars).flatMap entry.puts) =
      Text.replaceFrom entry.key entry.text skip (plain chars) := by
  induction chars generalizing skip with
  | nil => cases skip <;> rfl
  | cons c rest ih =>
    cases skip with
    | succ skip => exact ih skip
    | zero =>
      have hcons : plain (c :: rest) = c.char :: plain rest := rfl
      rw [meet, hcons, Text.replaceFrom]
      split
      · rw [List.flatMap_cons, plain_append, ih, Entry.puts, plain_ofText]
      · rw [List.flatMap_cons, plain_append, ih]
        rfl

/-- Without the origins an entry replaces its key. -/
theorem plain_trace (entry : Entry) (chars : List Traced) :
    plain (entry.trace chars) = Text.replaceAll entry.key entry.text (plain chars) := by
  rw [Entry.trace, Text.replaceAll]
  split
  · simp only [plain, ofText, List.map_append, List.map_map, List.map_flatMap, List.map_cons,
      List.flatMap_map, Function.comp_def, List.map_id']
  · exact plain_flatMap_puts entry 0 chars

/-! ## What an entry meets -/

/-- A key that stands here is met, and the way goes on behind it. -/
theorem meet_append_of_key (hkey : key ≠ []) (hchars : plain chars = key) (rest : List Traced) :
    meet key 0 (chars ++ rest) = .hit chars :: meet key 0 rest := by
  cases chars with
  | nil => exact absurd hchars.symm hkey
  | cons c chars =>
    have hlength : key.length = chars.length + 1 := by
      rw [← hchars]
      simp [plain]
    have hoccurs : key.isPrefixOf (plain (c :: (chars ++ rest))) = true := by
      rw [List.isPrefixOf_iff_prefix, ← List.cons_append, plain_append, hchars]
      exact List.prefix_append _ _
    rw [List.cons_append, meet, if_pos hoccurs, hlength, Nat.add_sub_cancel, meet_eq_drop,
      List.drop_left, List.take_succ_cons, List.take_left]

/-- Characters at which the key begins nowhere are kept, with what follows taken into account. -/
theorem meet_append_of_forall
    (h : ∀ lead tail, plain chars = lead ++ tail → tail ≠ [] → ¬ key <+: tail ++ plain rest) :
    meet key 0 (chars ++ rest) = chars.map .kept ++ meet key 0 rest := by
  induction chars with
  | nil => rfl
  | cons c chars ih =>
    have hhere : ¬ key.isPrefixOf (plain (c :: (chars ++ rest))) = true := by
      rw [List.isPrefixOf_iff_prefix, ← List.cons_append, plain_append]
      exact h [] (plain (c :: chars)) rfl (List.cons_ne_nil _ _)
    have hrest := ih fun lead tail hsplit ↦
      h (c.char :: lead) tail (congrArg (c.char :: ·) hsplit)
    rw [List.cons_append, meet, if_neg hhere, hrest]
    rfl

end Traced

namespace Table

variable {done later : Table} {entry : Entry} {line : Text} {pieces : List Piece}

/-- Without the origins, a traced line is the line as it is written. -/
theorem plain_traced (table : Table) (line : Text) :
    plain (table.traced line) = table.edited line := by
  suffices h : ∀ chars, plain (table.foldl (fun chars entry ↦ entry.trace chars) chars) =
      table.edited (plain chars) by
    rw [traced, h, Traced.plain_ofText]
  induction table with
  | nil => exact fun _ ↦ rfl
  | cons entry later ih =>
    intro chars
    rw [List.foldl_cons, ih, Traced.plain_trace, edited_cons]

/-- One more entry at the end sees what the others left. -/
theorem traced_concat (table : Table) (entry : Entry) (line : Text) :
    traced (table ++ [entry]) line = entry.trace (table.traced line) := by
  simp [traced]

/-! ## The pieces of a delimited line -/

/-- A piece after some entries, its characters with their origins. -/
def Piece.tracedAfter (done : Table) : Piece → List Traced
  | .copied c => ofText .line [c]
  | .key entry => if entry ∈ done then ofText (.put entry) entry.text else ofText .line entry.key

/-- A line of such pieces after some entries, with origins. -/
def renderTraced (done : Table) (pieces : List Piece) : List Traced :=
  pieces.flatMap (·.tracedAfter done)

theorem renderTraced_cons (done : Table) (piece : Piece) (pieces : List Piece) :
    renderTraced done (piece :: pieces) = piece.tracedAfter done ++ renderTraced done pieces := rfl

@[simp] theorem Piece.plain_tracedAfter (done : Table) (piece : Piece) :
    plain (piece.tracedAfter done) = piece.after done := by
  cases piece with
  | copied c => rfl
  | key entry =>
    simp only [Piece.tracedAfter, Piece.after]
    split <;> exact Traced.plain_ofText _ _

@[simp] theorem plain_renderTraced (done : Table) (pieces : List Piece) :
    plain (renderTraced done pieces) = render done pieces := by
  induction pieces with
  | nil => rfl
  | cons piece pieces ih =>
    rw [renderTraced_cons, Traced.plain_append, Piece.plain_tracedAfter, ih]
    rfl

/-- Before the first entry all characters are those of the line. -/
theorem Cut.renderTraced_eq {table : Table} (h : Cut table line pieces) :
    renderTraced [] pieces = ofText .line line := by
  induction h with
  | nil => rfl
  | copied _ _ ih =>
    rw [renderTraced_cons, ih]
    rfl
  | key _ _ ih =>
    rw [renderTraced_cons, ih]
    simp [Piece.tracedAfter, ofText]

/-- An entry leaves the pieces that are not its own, with their origins. -/
theorem Piece.tracedAfter_concat {piece : Piece} (h : entry ∉ done → piece ≠ .key entry) :
    piece.tracedAfter (done ++ [entry]) = piece.tracedAfter done := by
  cases piece with
  | copied c => rfl
  | key found => simp only [Piece.tracedAfter, mem_concat_iff h]

/-- What the next entry replaces are its own pieces, which stand as they were in the line. -/
theorem Finds.trace_renderTraced (hkey : entry.key ≠ []) (h : Finds done entry pieces) :
    entry.trace (renderTraced done pieces) = renderTraced (done ++ [entry]) pieces ∧
      ∀ hit ∈ entry.hits (renderTraced done pieces), hit = ofText .line entry.key := by
  have hempty : ¬ entry.key.isEmpty = true := by simpa using hkey
  rw [Entry.trace, if_neg hempty]
  induction h with
  | nil => exact ⟨rfl, fun hit hhit ↦ absurd hhit List.not_mem_nil⟩
  | @own pieces hnot _ ih =>
    obtain ⟨htrace, hhits⟩ := ih
    have hmeet : meet entry.key 0 (renderTraced done (.key entry :: pieces)) =
        .hit (ofText .line entry.key) :: meet entry.key 0 (renderTraced done pieces) := by
      rw [renderTraced_cons, Piece.tracedAfter, if_neg hnot]
      exact Traced.meet_append_of_key hkey (Traced.plain_ofText _ _) _
    refine ⟨?_, ?_⟩
    · rw [hmeet, List.flatMap_cons, htrace, renderTraced_cons, Piece.tracedAfter,
        if_pos (by simp)]
      rfl
    · intro hit hhit
      rw [Entry.hits, hmeet, List.filterMap_cons] at hhit
      rcases List.mem_cons.1 hhit with rfl | hrest
      · rfl
      · exact hhits hit hrest
  | @passed piece pieces hnowhere _ ih =>
    obtain ⟨htrace, hhits⟩ := ih
    have hmeet : meet entry.key 0 (renderTraced done (piece :: pieces)) =
        (piece.tracedAfter done).map .kept ++ meet entry.key 0 (renderTraced done pieces) := by
      rw [renderTraced_cons]
      refine Traced.meet_append_of_forall fun lead tail hsplit htail ↦ ?_
      rw [Piece.plain_tracedAfter] at hsplit
      rw [plain_renderTraced]
      exact hnowhere lead tail hsplit htail
    refine ⟨?_, ?_⟩
    · rw [hmeet, List.flatMap_append, htrace, renderTraced_cons,
        Piece.tracedAfter_concat (ne_key_of_nowhere hkey hnowhere), List.flatMap_map]
      simp [Entry.puts]
    · intro hit hhit
      have hkept : ((piece.tracedAfter done).map Met.kept).filterMap Met.occurrence? = [] := by
        simp [Met.occurrence?]
      rw [Entry.hits, hmeet, List.filterMap_append, hkept, List.nil_append] at hhit
      exact hhits hit hhit

/-- Entry by entry, the origins are those of the pieces. -/
theorem Cut.traced_eq_renderTraced {table : Table} (hsep : table.Separate)
    (h : Cut table line pieces) (hline : table.Delimited line) (hsplit : table = done ++ later) :
    done.traced line = renderTraced done pieces := by
  induction done using List.reverseRecOn generalizing later with
  | nil => exact h.renderTraced_eq.symm
  | append_singleton done entry ih =>
    have hnext : table = done ++ entry :: later := by rw [hsplit, List.append_assoc]; rfl
    have hkey : entry.key ≠ [] := hsep.key_ne_nil entry (by simp [hnext])
    rw [traced_concat, ih hnext, ((h.finds_next hsep hline hnext).trace_renderTraced hkey).1]

/-! ## Delimited lines -/

/-- With entries that do not meet, what an entry replaces in a delimited line was copied. -/
theorem eq_ofText_line_of_mem_hits {table : Table} (hsep : table.Separate)
    (hline : table.Delimited line) (hsplit : table = done ++ entry :: later) :
    ∀ hit ∈ entry.hits (done.traced line), hit = ofText .line entry.key := by
  obtain ⟨pieces, hcut⟩ := exists_cut hsep.key_ne_nil line
  have hkey : entry.key ≠ [] := hsep.key_ne_nil entry (by simp [hsplit])
  rw [hcut.traced_eq_renderTraced hsep hline hsplit]
  exact ((hcut.finds_next hsep hline hsplit).trace_renderTraced hkey).2

/-- In a delimited line, every occurrence of its key that an entry of the shipped table replaces
was copied from the line, from end to end; no character of it belongs to the text that an earlier
entry put. -/
theorem hits_v3_copied (hline : v3.Delimited line) (hsplit : v3 = done ++ entry :: later) :
    plain (done.traced line) = done.edited line ∧
      ∀ hit ∈ entry.hits (done.traced line), plain hit = entry.key ∧
        ∀ c ∈ hit, c.origin = .line := by
  refine ⟨plain_traced done line, ?_⟩
  intro hit hhit
  rw [eq_ofText_line_of_mem_hits separate_v3 hline hsplit hit hhit]
  refine ⟨Traced.plain_ofText _ _, ?_⟩
  intro c hc
  obtain ⟨_, -, rfl⟩ := List.mem_map.1 hc
  rfl

/-- `ghNotify` in a line in which `changedFiles` has given way to its text. -/
theorem hits_v3_copied_ghNotify :
    let line := "ghNotify(changedFiles)".toList
    let done : Table := v3.take 8
    let entry := Entry.of "ghNotify" "gitUtils.ghNotify"
    v3.Delimited line ∧ v3 = done ++ entry :: v3.drop 9 ∧
      plain (done.traced line) = done.edited line ∧
      entry.hits (done.traced line) = [ofText .line entry.key] ∧
      ∀ hit ∈ entry.hits (done.traced line),
        plain hit = entry.key ∧ ∀ c ∈ hit, c.origin = .line := by
  intro line done entry
  have hline : v3.Delimited line := by
    unfold v3
    repeat rw [Entry.of_ofList]
    decide +kernel
  have hsplit : v3 = done ++ entry :: v3.drop 9 := (List.take_append_drop 8 v3).symm
  have hhits : entry.hits (done.traced line) = [ofText .line entry.key] := by
    unfold done v3
    repeat rw [Entry.of_ofList]
    decide +kernel
  obtain ⟨hplain, hall⟩ := hits_v3_copied hline hsplit
  exact ⟨hline, hsplit, hplain, hhits, hall⟩

/-- A letter behind `openShift` makes a later key of the end of its text: `slackNotify`, which is
not in the line, is replaced together with the last letter of `openShiftUtils`. -/
theorem hits_v3_beside_letter :
    let line := "openShiftlackNotify".toList
    let done : Table := v3.take 21
    let earlier := Entry.of "openShift" "openShiftUtils"
    let entry := Entry.of "slackNotify" "slack.sendMsg"
    v3 = done ++ entry :: v3.drop 22 ∧ earlier ∈ done ∧
      (∃ hit ∈ entry.hits (done.traced line), ∃ c ∈ hit, c.origin = .put earlier) ∧
      v3.apply line = some "openShiftUtilslack.sendMsg".toList := by
  intro line done earlier entry
  refine ⟨(List.take_append_drop 21 v3).symm, ?_⟩
  unfold done earlier entry v3
  repeat rw [Entry.of_ofList]
  decide +kernel

end Table

end LineMigration
