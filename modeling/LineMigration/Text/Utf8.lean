import LineMigration.Text.Basic

/-!
# UTF-8

`Text.utf8` writes a text as octets. `Utf8.decode` reads octets through a machine that takes one
octet a step and gives a character when its last octet has come; it refuses overlong forms,
surrogates and code points above U+10FFFF. `run_append` says that the machine may stop and go on
at any octet.
-/

namespace LineMigration

/-- The UTF-8 octets of a text. -/
def Text.utf8 (t : Text) : Bytes := t.flatMap String.utf8EncodeChar

@[simp] theorem Text.utf8_nil : Text.utf8 [] = [] := rfl

@[simp] theorem Text.utf8_append (s t : Text) : Text.utf8 (s ++ t) = Text.utf8 s ++ Text.utf8 t :=
  List.flatMap_append

namespace Utf8

/-- Where the machine stands: between characters, or inside one that still owes octets. -/
inductive State where
  /-- No character is open. -/
  | start
  /-- `owed` octets are missing, `code` is known so far, and the character has to be at
  least `least`, as a smaller one has a shorter form. -/
  | within (owed code least : Nat)
  deriving DecidableEq

/-- The character of a code point that its form allows. -/
def scalar? (least code : Nat) : Option Char :=
  if least ≤ code ∧ code.isValidChar then some (Char.ofNat code) else none

/-- The first octet of a character: a whole character below 0x80, else what it announces. -/
def first (octet : UInt8) : Option (State × Text) :=
  let code := octet.toNat
  if code < 0x80 then some (.start, [Char.ofNat code])
  else if code < 0xC0 then none
  else if code < 0xE0 then some (.within 1 (code - 0xC0) 0x80, [])
  else if code < 0xF0 then some (.within 2 (code - 0xE0) 0x800, [])
  else if code < 0xF8 then some (.within 3 (code - 0xF0) 0x10000, [])
  else none

/-- One octet: the state after it and the characters it completes, or `none` where no
character goes on with it. -/
def step : State → UInt8 → Option (State × Text)
  | .start, octet => first octet
  | .within owed code least, octet =>
    if 0x80 ≤ octet.toNat ∧ octet.toNat < 0xC0 then
      let longer := code * 64 + (octet.toNat - 0x80)
      if owed ≤ 1 then (scalar? least longer).map fun c ↦ (.start, [c])
      else some (.within (owed - 1) longer least, [])
    else none

/-- All octets in turn. -/
def run : State → Bytes → Option (State × Text)
  | state, [] => some (state, [])
  | state, octet :: rest =>
    match step state octet with
    | none => none
    | some (next, done) =>
      match run next rest with
      | none => none
      | some (final, more) => some (final, done ++ more)

/-- The text that octets encode, or `none` where they are not UTF-8. -/
def decode (octets : Bytes) : Option Text :=
  match run .start octets with
  | some (.start, t) => some t
  | _ => none

@[simp] theorem run_nil (state : State) : run state [] = some (state, []) := rfl

/-- The machine may stop at any octet and go on from the state it is in. -/
theorem run_append (state : State) (xs ys : Bytes) :
    run state (xs ++ ys) =
      (run state xs).bind fun (middle, s) ↦
        (run middle ys).map fun (final, t) ↦ (final, s ++ t) := by
  induction xs generalizing state with
  | nil => cases h : run state ys <;> simp [h]
  | cons octet rest ih =>
    simp only [List.cons_append, run]
    cases step state octet with
    | none => rfl
    | some taken =>
      obtain ⟨next, done⟩ := taken
      simp only [ih]
      cases run next rest with
      | none => rfl
      | some reached =>
        obtain ⟨middle, s⟩ := reached
        simp only [Option.bind_some]
        cases run middle ys <;> simp

end Utf8

end LineMigration
