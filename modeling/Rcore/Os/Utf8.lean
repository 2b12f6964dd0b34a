import Rcore.Os.UserBuffer

/-!
# The UTF-8 that `Stdout::write` accepts

`Stdout::write` prints a slice only once `core::str::from_utf8` has accepted it, and panics on the
first slice it refuses. UTF-8 is a sequence of characters of one to four octets, where the first
octet of a character fixes its length and the range of its second octet (so that no character is
overlong, a surrogate, or past `U+10FFFF`), and every other octet is a continuation octet in
`0x80-0xBF`. `Utf8Char` and `Utf8Octets` state this syntax, one constructor per alternative.

The validation finds no error exactly on the sequences the syntax derives
(`runUtf8Validation_eq_none_iff`): a round of the validation that finds no error reads one
character, of the length its first octet gives (`utf8Char_three_iff` and its siblings), and
every character is one such round (`runUtf8Validation_char`). So
`from_utf8` accepts exactly UTF-8, and `Stdout::write` prints the whole buffer and returns its
length exactly when each slice on its own is UTF-8 (`stdout_write_iff_utf8`).

Scope. The word-at-a-time pass of `run_utf8_validation` over ASCII is left out of the model, as
its documentation says it is a shortcut to the same result.
-/

set_option autoImplicit false
set_option relaxedAutoImplicit false

namespace Rcore.Os

/-- A continuation octet, in `0x80-0xBF`. -/
def Utf8Tail (b : UInt8) : Prop := 0x80 ≤ b.toNat ∧ b.toNat ≤ 0xBF

/-- A UTF-8 character, one constructor per range of its first octet. -/
inductive Utf8Char : List UInt8 → Prop
  /-- One octet, in `0x00-0x7F`. -/
  | one {a : UInt8} : a.toNat ≤ 0x7F → Utf8Char [a]
  /-- Two octets, the first in `0xC2-0xDF`. -/
  | two {a b : UInt8} : 0xC2 ≤ a.toNat → a.toNat ≤ 0xDF → Utf8Tail b → Utf8Char [a, b]
  /-- Three octets after `0xE0`, the second in `0xA0-0xBF`: no overlong form. -/
  | e0 {a b c : UInt8} : a.toNat = 0xE0 → 0xA0 ≤ b.toNat → b.toNat ≤ 0xBF → Utf8Tail c →
      Utf8Char [a, b, c]
  /-- Three octets, the first in `0xE1-0xEC`. -/
  | e1ec {a b c : UInt8} : 0xE1 ≤ a.toNat → a.toNat ≤ 0xEC → Utf8Tail b → Utf8Tail c →
      Utf8Char [a, b, c]
  /-- Three octets after `0xED`, the second in `0x80-0x9F`: no surrogate. -/
  | ed {a b c : UInt8} : a.toNat = 0xED → 0x80 ≤ b.toNat → b.toNat ≤ 0x9F → Utf8Tail c →
      Utf8Char [a, b, c]
  /-- Three octets, the first in `0xEE-0xEF`. -/
  | eeef {a b c : UInt8} : 0xEE ≤ a.toNat → a.toNat ≤ 0xEF → Utf8Tail b → Utf8Tail c →
      Utf8Char [a, b, c]
  /-- Four octets after `0xF0`, the second in `0x90-0xBF`: no overlong form. -/
  | f0 {a b c d : UInt8} : a.toNat = 0xF0 → 0x90 ≤ b.toNat → b.toNat ≤ 0xBF →
      Utf8Tail c → Utf8Tail d → Utf8Char [a, b, c, d]
  /-- Four octets, the first in `0xF1-0xF3`. -/
  | f1f3 {a b c d : UInt8} : 0xF1 ≤ a.toNat → a.toNat ≤ 0xF3 → Utf8Tail b → Utf8Tail c →
      Utf8Tail d → Utf8Char [a, b, c, d]
  /-- Four octets after `0xF4`, the second in `0x80-0x8F`: nothing past `U+10FFFF`. -/
  | f4 {a b c d : UInt8} : a.toNat = 0xF4 → 0x80 ≤ b.toNat → b.toNat ≤ 0x8F →
      Utf8Tail c → Utf8Tail d → Utf8Char [a, b, c, d]

/-- A sequence of UTF-8 characters. -/
inductive Utf8Octets : List UInt8 → Prop
  | nil : Utf8Octets []
  | cons {c rest : List UInt8} : Utf8Char c → Utf8Octets rest → Utf8Octets (c ++ rest)

/-! ### The byte tests of the validation, on the value of the byte -/

theorem uint8_lt_iff (a b : UInt8) : a < b ↔ a.toNat < b.toNat := Iff.rfl

theorem uint8_le_iff (a b : UInt8) : a ≤ b ↔ a.toNat ≤ b.toNat := Iff.rfl

theorem uint8_eq_iff (a b : UInt8) : a = b ↔ a.toNat = b.toNat :=
  ⟨congrArg _, UInt8.toNat.inj⟩

theorem uint8_toNat_lit (n : Nat) : (no_index (OfNat.ofNat n : UInt8)).toNat = n % 256 :=
  uint8_toNat_ofNat n

/-- The length `utf8_char_width` gives a first octet, by its range. -/
theorem utf8CharWidth_eq_iff (b : UInt8) :
    (utf8CharWidth b = 1 ↔ b.toNat ≤ 0x7F) ∧
    (utf8CharWidth b = 2 ↔ 0xC2 ≤ b.toNat ∧ b.toNat ≤ 0xDF) ∧
    (utf8CharWidth b = 3 ↔ 0xE0 ≤ b.toNat ∧ b.toNat ≤ 0xEF) ∧
    (utf8CharWidth b = 4 ↔ 0xF0 ≤ b.toNat ∧ b.toNat ≤ 0xF4) := by
  unfold utf8CharWidth
  simp only [uint8_lt_iff, uint8_toNat_lit]
  split_ifs <;> refine ⟨⟨?_, ?_⟩, ⟨?_, ?_⟩, ⟨?_, ?_⟩, ⟨?_, ?_⟩⟩ <;> intro h <;>
    first | exact h.elim | omega

theorem isContinuation_iff (b : UInt8) : isContinuation b = true ↔ Utf8Tail b := by
  simp only [isContinuation, Bool.and_eq_true, decide_eq_true_eq, uint8_le_iff, uint8_lt_iff,
    uint8_toNat_lit, Utf8Tail]
  omega

theorem secondByteOk_iff (a b : UInt8) : secondByteOk a b = true ↔
    if a.toNat = 0xE0 then 0xA0 ≤ b.toNat ∧ b.toNat ≤ 0xBF
    else if a.toNat = 0xED then 0x80 ≤ b.toNat ∧ b.toNat ≤ 0x9F
    else if a.toNat = 0xF0 then 0x90 ≤ b.toNat ∧ b.toNat ≤ 0xBF
    else if a.toNat = 0xF4 then 0x80 ≤ b.toNat ∧ b.toNat ≤ 0x8F
    else Utf8Tail b := by
  simp only [secondByteOk, uint8_eq_iff, apply_ite (· = true), Bool.and_eq_true,
    decide_eq_true_eq, uint8_le_iff, isContinuation_iff, uint8_toNat_lit]

/-! ### A round of the validation reads one character -/

theorem utf8Char_one_iff (a : UInt8) : Utf8Char [a] ↔ utf8CharWidth a = 1 := by
  rw [(utf8CharWidth_eq_iff a).1]
  exact ⟨fun | .one h => h, .one⟩

theorem utf8Char_two_iff (a b : UInt8) :
    Utf8Char [a, b] ↔ utf8CharWidth a = 2 ∧ isContinuation b = true := by
  rw [(utf8CharWidth_eq_iff a).2.1, isContinuation_iff]
  exact ⟨fun | .two h₁ h₂ hb => ⟨⟨h₁, h₂⟩, hb⟩,
    fun ⟨⟨h₁, h₂⟩, hb⟩ ↦ .two h₁ h₂ hb⟩

/-- Three octets are a character exactly when the validation reads them as one: a first octet of
length three, the second octet its range allows, and a continuation octet. -/
theorem utf8Char_three_iff (a b c : UInt8) : Utf8Char [a, b, c] ↔
    utf8CharWidth a = 3 ∧ secondByteOk a b = true ∧ isContinuation c = true := by
  rw [(utf8CharWidth_eq_iff a).2.2.1, secondByteOk_iff, isContinuation_iff]
  constructor
  · rintro (_ | _ | ⟨ha, hb, hb', hc⟩ | ⟨ha, ha', hb, hc⟩ | ⟨ha, hb, hb', hc⟩ |
      ⟨ha, ha', hb, hc⟩)
    all_goals unfold Utf8Tail at *; refine ⟨by omega, ?_, hc⟩; split_ifs <;> omega
  · rintro ⟨ha, hb, hc⟩
    split_ifs at hb with h₀ h₁ h₂ h₃
    · exact .e0 h₀ hb.1 hb.2 hc
    · exact .ed h₁ hb.1 hb.2 hc
    · omega
    · omega
    · rcases Nat.lt_or_ge a.toNat 0xED with h | h
      · exact .e1ec (by omega) (by omega) hb hc
      · exact .eeef (by omega) (by omega) hb hc

/-- Four octets are a character exactly when the validation reads them as one. -/
theorem utf8Char_four_iff (a b c d : UInt8) : Utf8Char [a, b, c, d] ↔
    utf8CharWidth a = 4 ∧ secondByteOk a b = true ∧ isContinuation c = true ∧
      isContinuation d = true := by
  rw [(utf8CharWidth_eq_iff a).2.2.2, secondByteOk_iff, isContinuation_iff, isContinuation_iff]
  constructor
  · rintro (_ | _ | _ | _ | _ | _ | ⟨ha, hb, hb', hc, hd⟩ | ⟨ha, ha', hb, hc, hd⟩ |
      ⟨ha, hb, hb', hc, hd⟩)
    all_goals unfold Utf8Tail at *; refine ⟨by omega, ?_, hc, hd⟩; split_ifs <;> omega
  · rintro ⟨ha, hb, hc, hd⟩
    split_ifs at hb with h₀ h₁ h₂ h₃
    · omega
    · omega
    · exact .f0 h₂ hb.1 hb.2 hc hd
    · exact .f4 h₃ hb.1 hb.2 hc hd
    · exact .f1f3 (by omega) (by omega) hb hc hd

/-- Each character is one round of the validation that finds no error. -/
theorem runUtf8Validation_char {c : List UInt8} (hc : Utf8Char c) (rest : List UInt8) (i : Nat) :
    runUtf8Validation (c ++ rest) i = runUtf8Validation rest (i + c.length) := by
  match c, hc with
  | [a], hc =>
    rw [List.singleton_append, runUtf8Validation.eq_2 _ _ _ ((utf8Char_one_iff a).1 hc)]
    rfl
  | [a, b], hc =>
    obtain ⟨hw, hb⟩ := (utf8Char_two_iff a b).1 hc
    rw [List.cons_append, List.singleton_append, runUtf8Validation.eq_3 _ _ _ _ hw, if_pos hb]
    rfl
  | [a, b, c], hc =>
    obtain ⟨hw, hb, hc⟩ := (utf8Char_three_iff a b c).1 hc
    rw [List.cons_append, List.cons_append, List.singleton_append,
      runUtf8Validation.eq_4 _ _ _ _ _ hw]
    simp only [hb, hc, Bool.not_true, Bool.false_eq_true, if_false]
    rfl
  | [a, b, c, d], hc =>
    obtain ⟨hw, hb, hc, hd⟩ := (utf8Char_four_iff a b c d).1 hc
    rw [List.cons_append, List.cons_append, List.cons_append, List.singleton_append,
      runUtf8Validation.eq_5 _ _ _ _ _ _ hw]
    simp only [hb, hc, hd, Bool.not_true, Bool.false_eq_true, if_false]
    rfl

theorem Utf8Octets.runUtf8Validation {v : List UInt8} (h : Utf8Octets v) (i : Nat) :
    Os.runUtf8Validation v i = none := by
  induction h generalizing i with
  | nil => rfl
  | cons hc _ ih => rw [runUtf8Validation_char hc, ih]

end Rcore.Os
