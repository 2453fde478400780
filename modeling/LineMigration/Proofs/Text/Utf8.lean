import Mathlib.Algebra.Group.Nat.Defs
import Mathlib.Tactic.Common
import LineMigration.Text.Utf8

/-!
# The UTF-8 machine against the encoder

The machine that takes one octet a step reads exactly what the encoder writes. `run_encoded` is
the step: the octets of one character bring the machine from `start` back to `start`, and
`exists_encoded_of_run` is its converse, which rests on the least code point that each form
allows. Over a whole text they give `decode_eq_some_iff`.
-/

namespace LineMigration

namespace Utf8

/-- The number of an octet that is made from a small number. -/
theorem toNat_octet {n : Nat} (h : n < 256) : (UInt8.ofNat n).toNat = n := by
  rw [UInt8.toNat_ofNat', Nat.mod_eq_of_lt h]

/-- A code point of a character is that of the character. -/
theorem scalar?_toNat {least : Nat} (c : Char) (h : least ≤ c.toNat) :
    scalar? least c.toNat = some c := by
  have hvalid : c.toNat.isValidChar := c.valid
  simp [scalar?, h, hvalid, Char.ofNat_toNat]

/-- The last octet that a character owes completes it. -/
theorem step_last (c : Char) (code least n : Nat) (hn : n < 0x40) (hcode : code * 64 + n = c.toNat)
    (hleast : least ≤ c.toNat) :
    step (.within 1 code least) (UInt8.ofNat (n + 0x80)) = some (.start, [c]) := by
  have hoctet : (UInt8.ofNat (n + 0x80)).toNat = n + 0x80 := toNat_octet (by omega)
  simp only [step, hoctet]
  rw [if_pos (by omega), if_pos (by omega), Nat.add_sub_cancel, hcode, scalar?_toNat c hleast]
  rfl

/-- An octet before the last one adds six bits to what is known. -/
theorem step_owed {owed code least n : Nat} (hn : n < 0x40) :
    step (.within (owed + 2) code least) (UInt8.ofNat (n + 0x80)) =
      some (.within (owed + 1) (code * 64 + n) least, []) := by
  have hoctet : (UInt8.ofNat (n + 0x80)).toNat = n + 0x80 := toNat_octet (by omega)
  simp only [step, hoctet]
  rw [if_pos (by omega), if_neg (by omega), Nat.add_sub_cancel]
  rfl

/-- A first octet of two announces one more. -/
theorem step_first_two {n : Nat} (hn : n < 0x20) :
    step .start (UInt8.ofNat (n + 0xC0)) = some (.within 1 n 0x80, []) := by
  have hoctet : (UInt8.ofNat (n + 0xC0)).toNat = n + 0xC0 := toNat_octet (by omega)
  simp only [step, first, hoctet]
  rw [if_neg (by omega), if_neg (by omega), if_pos (by omega), Nat.add_sub_cancel]

/-- A first octet of three announces two more. -/
theorem step_first_three {n : Nat} (hn : n < 0x10) :
    step .start (UInt8.ofNat (n + 0xE0)) = some (.within 2 n 0x800, []) := by
  have hoctet : (UInt8.ofNat (n + 0xE0)).toNat = n + 0xE0 := toNat_octet (by omega)
  simp only [step, first, hoctet]
  rw [if_neg (by omega), if_neg (by omega), if_neg (by omega), if_pos (by omega),
    Nat.add_sub_cancel]

/-- A first octet of four announces three more. -/
theorem step_first_four {n : Nat} (hn : n < 0x08) :
    step .start (UInt8.ofNat (n + 0xF0)) = some (.within 3 n 0x10000, []) := by
  have hoctet : (UInt8.ofNat (n + 0xF0)).toNat = n + 0xF0 := toNat_octet (by omega)
  simp only [step, first, hoctet]
  rw [if_neg (by omega), if_neg (by omega), if_neg (by omega), if_neg (by omega),
    if_pos (by omega), Nat.add_sub_cancel]

/-- A step that the machine can take, and then the rest. -/
theorem run_cons {state next : State} {octet : UInt8} {done : Text} {rest : Bytes}
    (h : step state octet = some (next, done)) :
    run state (octet :: rest) = (run next rest).map fun (final, more) ↦ (final, done ++ more) := by
  simp only [run, h]
  cases run next rest <;> rfl

/-- The octets of a character are read as the character. -/
theorem run_encoded (c : Char) : run .start (String.utf8EncodeChar c) = some (.start, [c]) := by
  have hvalid : c.toNat.isValidChar := c.valid
  have hmax : c.toNat < 0x110000 := by
    simp only [Nat.isValidChar] at hvalid
    omega
  have hval : c.val.toNat = c.toNat := rfl
  simp only [String.utf8EncodeChar, hval]
  split
  · have hoctet : (UInt8.ofNat c.toNat).toNat = c.toNat := toNat_octet (by omega)
    have hfirst : step .start (UInt8.ofNat c.toNat) = some (.start, [c]) := by
      simp only [step, first, hoctet]
      rw [if_pos (by omega), Char.ofNat_toNat]
    rw [run_cons hfirst]
    rfl
  split
  · have hlast := step_last c (c.toNat / 64 % 0x20) 0x80 (c.toNat % 0x40)
      (Nat.mod_lt c.toNat (by omega)) (by omega) (by omega)
    rw [run_cons (step_first_two (Nat.mod_lt _ (by omega))), run_cons hlast]
    rfl
  split
  · have hlast := step_last c (c.toNat / 4096 % 0x10 * 64 + c.toNat / 64 % 0x40) 0x800
      (c.toNat % 0x40) (Nat.mod_lt c.toNat (by omega)) (by omega) (by omega)
    rw [run_cons (step_first_three (Nat.mod_lt _ (by omega))),
      run_cons (step_owed (Nat.mod_lt _ (by omega))), run_cons hlast]
    rfl
  · have hlast := step_last c
      ((c.toNat / 262144 % 0x08 * 64 + c.toNat / 4096 % 0x40) * 64 + c.toNat / 64 % 0x40) 0x10000
      (c.toNat % 0x40) (Nat.mod_lt c.toNat (by omega)) (by omega) (by omega)
    rw [run_cons (step_first_four (Nat.mod_lt _ (by omega))),
      run_cons (step_owed (Nat.mod_lt _ (by omega))),
      run_cons (step_owed (Nat.mod_lt _ (by omega))), run_cons hlast]
    rfl

/-! ## What the machine accepts -/

/-- The octets after the first one: the low six bits of each are a digit of the code point. -/
def tailOctets : Nat → Nat → Bytes
  | 0, _ => []
  | owed + 1, code => UInt8.ofNat (code / 0x40 ^ owed % 0x40 + 0x80) :: tailOctets owed code

/-- A run over one more octet is a step and a run over the others. -/
theorem exists_step_of_run {state final : State} {octet : UInt8} {more : Bytes} {t : Text}
    (h : run state (octet :: more) = some (final, t)) :
    ∃ next done rest, step state octet = some (next, done) ∧
      run next more = some (final, rest) ∧ t = done ++ rest := by
  simp only [run] at h
  split at h
  · cases h
  · next next done hstep =>
    split at h
    · cases h
    · next reached rest hrun =>
      cases h
      exact ⟨next, done, rest, hstep, hrun, rfl⟩

/-- Inside a character a step takes one digit, and the last digit gives the character. -/
theorem digit_of_step {owed code least : Nat} {octet : UInt8} {next : State} {done : Text}
    (h : step (.within (owed + 1) code least) octet = some (next, done)) :
    ∃ digit, digit < 0x40 ∧ octet = UInt8.ofNat (digit + 0x80) ∧
      ((owed = 0 ∧ next = .start ∧
          ∃ c, c.toNat = code * 64 + digit ∧ least ≤ c.toNat ∧ done = [c]) ∨
        ∃ fewer, owed = fewer + 1 ∧ next = .within owed (code * 64 + digit) least ∧
          done = []) := by
  simp only [step] at h
  split at h
  · next hoctet =>
    refine ⟨octet.toNat - 0x80, by omega, ?_, ?_⟩
    · rw [Nat.sub_add_cancel hoctet.1, UInt8.ofNat_toNat]
    · split at h
      -- This digit is the last one: the code point is complete.
      · next howed =>
        simp only [scalar?, Option.map_if] at h
        split at h
        · next hscalar =>
          cases h
          have hcode : (Char.ofNat (code * 64 + (octet.toNat - 0x80))).toNat =
              code * 64 + (octet.toNat - 0x80) := by
            rw [Char.ofNat, dif_pos hscalar.2]
            rfl
          exact Or.inl ⟨by omega, rfl, _, hcode, by omega, rfl⟩
        · cases h
      · next howed =>
        cases h
        exact Or.inr ⟨owed - 1, by omega, rfl, rfl⟩
  · cases h

/-- A character that has begun is completed by its tail, and the machine is back at the start. -/
theorem exists_tail_of_run {owed code least : Nat} {octets : Bytes} {t : Text}
    (h : run (.within (owed + 1) code least) octets = some (.start, t)) :
    ∃ c more rest, c.toNat / 0x40 ^ (owed + 1) = code ∧ least ≤ c.toNat ∧
      octets = tailOctets (owed + 1) c.toNat ++ more ∧ t = c :: rest ∧
      run .start more = some (.start, rest) := by
  induction owed generalizing code octets t with
  | zero =>
    cases octets with
    | nil => simp at h
    | cons octet more =>
      obtain ⟨next, done, rest, hstep, hrun, rfl⟩ := exists_step_of_run h
      obtain ⟨digit, hdigit, rfl, ⟨-, rfl, c, hcode, hleast, rfl⟩ | ⟨fewer, hfewer, -⟩⟩ :=
        digit_of_step hstep
      · refine ⟨c, more, rest, by omega, hleast, ?_, rfl, hrun⟩
        show _ = UInt8.ofNat (c.toNat / 0x40 ^ 0 % 0x40 + 0x80) :: more
        rw [Nat.pow_zero, Nat.div_one, hcode, show (code * 64 + digit) % 0x40 = digit by omega]
      · omega
  | succ owed ih =>
    cases octets with
    | nil => simp at h
    | cons octet more =>
      obtain ⟨next, done, rest, hstep, hrun, rfl⟩ := exists_step_of_run h
      obtain ⟨digit, hdigit, rfl, ⟨hzero, -⟩ | ⟨fewer, -, rfl, rfl⟩⟩ := digit_of_step hstep
      · omega
      · obtain ⟨c, more, rest, hcode, hleast, rfl, rfl, hrest⟩ := ih hrun
        refine ⟨c, more, rest, ?_, hleast, ?_, rfl, hrest⟩
        · rw [Nat.pow_succ, ← Nat.div_div_eq_div_mul, hcode]
          omega
        · show _ = UInt8.ofNat (c.toNat / 0x40 ^ (owed + 1) % 0x40 + 0x80) ::
            (tailOctets (owed + 1) c.toNat ++ more)
          rw [hcode, show (code * 64 + digit) % 0x40 = digit by omega]

/-- A first octet begins a character of one octet, or announces a tail. -/
theorem first_cases {octet : UInt8} {next : State} {done : Text}
    (h : step .start octet = some (next, done)) :
    (next = .start ∧ ∃ c, c.toNat < 0x80 ∧ octet = UInt8.ofNat c.toNat ∧ done = [c]) ∨
      ∃ code, done = [] ∧
        ((code < 0x20 ∧ octet = UInt8.ofNat (code + 0xC0) ∧ next = .within 1 code 0x80) ∨
          (code < 0x10 ∧ octet = UInt8.ofNat (code + 0xE0) ∧ next = .within 2 code 0x800) ∨
          (code < 0x08 ∧ octet = UInt8.ofNat (code + 0xF0) ∧ next = .within 3 code 0x10000)) := by
  have hself : UInt8.ofNat octet.toNat = octet := UInt8.ofNat_toNat
  simp only [step, first] at h
  split at h
  · next hone =>
    cases h
    have hcode : (Char.ofNat octet.toNat).toNat = octet.toNat := by
      rw [Char.ofNat, dif_pos (Or.inl (by omega))]
      rfl
    exact Or.inl ⟨rfl, _, by omega, by rw [hcode, hself], rfl⟩
  split at h
  · cases h
  split at h
  · cases h
    exact Or.inr ⟨octet.toNat - 0xC0, rfl, Or.inl ⟨by omega,
      by rw [Nat.sub_add_cancel (by omega), hself], rfl⟩⟩
  split at h
  · cases h
    exact Or.inr ⟨octet.toNat - 0xE0, rfl, Or.inr (Or.inl ⟨by omega,
      by rw [Nat.sub_add_cancel (by omega), hself], rfl⟩)⟩
  split at h
  · cases h
    exact Or.inr ⟨octet.toNat - 0xF0, rfl, Or.inr (Or.inr ⟨by omega,
      by rw [Nat.sub_add_cancel (by omega), hself], rfl⟩)⟩
  · cases h

/-- A character below 0x800 that needs two octets has a tail of one. -/
theorem encoded_two {c : Char} (hleast : 0x80 ≤ c.toNat) (hlt : c.toNat / 0x40 ^ 1 < 0x20) :
    String.utf8EncodeChar c =
      UInt8.ofNat (c.toNat / 0x40 ^ 1 + 0xC0) :: tailOctets 1 c.toNat := by
  have hval : c.val.toNat = c.toNat := rfl
  simp only [Nat.reducePow] at hlt
  simp only [String.utf8EncodeChar, hval, tailOctets, Nat.reducePow, Nat.div_one]
  rw [if_neg (by omega), if_pos (by omega), Nat.mod_eq_of_lt hlt]

/-- A character below 0x10000 that needs three octets has a tail of two. -/
theorem encoded_three {c : Char} (hleast : 0x800 ≤ c.toNat) (hlt : c.toNat / 0x40 ^ 2 < 0x10) :
    String.utf8EncodeChar c =
      UInt8.ofNat (c.toNat / 0x40 ^ 2 + 0xE0) :: tailOctets 2 c.toNat := by
  have hval : c.val.toNat = c.toNat := rfl
  simp only [Nat.reducePow] at hlt
  simp only [String.utf8EncodeChar, hval, tailOctets, Nat.reducePow, Nat.div_one]
  rw [if_neg (by omega), if_neg (by omega), if_pos (by omega), Nat.mod_eq_of_lt hlt]

/-- A character that needs four octets has a tail of three. -/
theorem encoded_four {c : Char} (hleast : 0x10000 ≤ c.toNat) (hlt : c.toNat / 0x40 ^ 3 < 0x08) :
    String.utf8EncodeChar c =
      UInt8.ofNat (c.toNat / 0x40 ^ 3 + 0xF0) :: tailOctets 3 c.toNat := by
  have hval : c.val.toNat = c.toNat := rfl
  simp only [Nat.reducePow] at hlt
  simp only [String.utf8EncodeChar, hval, tailOctets, Nat.reducePow, Nat.div_one]
  rw [if_neg (by omega), if_neg (by omega), if_neg (by omega), Nat.mod_eq_of_lt hlt]

/-- What the machine reads begins with the octets of its first character. -/
theorem exists_encoded_of_run {octets : Bytes} {t : Text} (hne : octets ≠ [])
    (h : run .start octets = some (.start, t)) :
    ∃ c more rest, octets = String.utf8EncodeChar c ++ more ∧ t = c :: rest ∧
      run .start more = some (.start, rest) := by
  cases octets with
  | nil => exact absurd rfl hne
  | cons octet more =>
    obtain ⟨next, done, rest, hstep, hrun, rfl⟩ := exists_step_of_run h
    obtain ⟨rfl, c, hc, rfl, rfl⟩ | ⟨code, rfl, htail⟩ := first_cases hstep
    · refine ⟨c, more, rest, ?_, rfl, hrun⟩
      have hval : c.val.toNat = c.toNat := rfl
      simp only [String.utf8EncodeChar, hval]
      rw [if_pos (by omega)]
      rfl
    -- A first octet of each longer form is followed by as many digits as it announces.
    · obtain ⟨hcode, rfl, rfl⟩ | ⟨hcode, rfl, rfl⟩ | ⟨hcode, rfl, rfl⟩ := htail
      all_goals
        obtain ⟨c, more, rest, rfl, hleast, rfl, rfl, hrest⟩ := exists_tail_of_run hrun
        refine ⟨c, more, rest, ?_, rfl, hrest⟩
      · rw [encoded_two hleast hcode]
        rfl
      · rw [encoded_three hleast hcode]
        rfl
      · rw [encoded_four hleast hcode]
        rfl

/-! ## Whole texts -/

/-- A text is read from its octets. -/
theorem run_utf8 (t : Text) : run .start (Text.utf8 t) = some (.start, t) := by
  induction t with
  | nil => rfl
  | cons c rest ih =>
    show run .start (String.utf8EncodeChar c ++ Text.utf8 rest) = some (.start, c :: rest)
    rw [run_append, run_encoded]
    simp [ih]

/-- Octets that are read as a text are those of the text. -/
theorem eq_utf8_of_run {octets : Bytes} {t : Text} (h : run .start octets = some (.start, t)) :
    octets = Text.utf8 t := by
  induction t generalizing octets with
  | nil =>
    by_contra hne
    obtain ⟨c, more, rest, -, hcons, -⟩ := exists_encoded_of_run hne h
    cases hcons
  | cons c rest ih =>
    have hne : octets ≠ [] := by
      rintro rfl
      simp at h
    obtain ⟨_, more, _, rfl, hcons, hrun⟩ := exists_encoded_of_run hne h
    cases hcons
    show String.utf8EncodeChar c ++ more = String.utf8EncodeChar c ++ Text.utf8 rest
    rw [ih hrun]

/-- Reading is the converse of writing: octets are read as a text exactly if the text is written
as them. -/
theorem decode_eq_some_iff {octets : Bytes} {t : Text} :
    decode octets = some t ↔ octets = Text.utf8 t := by
  constructor
  · intro h
    simp only [decode] at h
    split at h
    · next hrun =>
      cases h
      exact eq_utf8_of_run hrun
    · cases h
  · rintro rfl
    simp [decode, run_utf8]

@[simp] theorem decode_utf8 (t : Text) : decode (Text.utf8 t) = some t :=
  decode_eq_some_iff.2 rfl

end Utf8

/-- A text is known from its octets. -/
theorem Text.utf8_injective {s t : Text} (h : Text.utf8 s = Text.utf8 t) : s = t := by
  have hdecode := Utf8.decode_utf8 s
  rw [h, Utf8.decode_utf8] at hdecode
  exact (Option.some.inj hdecode).symm

end LineMigration
