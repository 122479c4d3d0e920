import Mathlib.Data.String.Basic

namespace QuantumLowering

def utf8Bytes (s : String) : List UInt8 := s.toUTF8.data.toList

theorem utf8Bytes_eq (s : String) : utf8Bytes s = s.toList.flatMap String.utf8EncodeChar := by
  have encoded : s.toByteArray = s.toList.utf8Encode := String.utf8Encode_toList.symm
  rw [utf8Bytes, String.toUTF8_eq_toByteArray, encoded, List.utf8Encode, List.toList_data_toByteArray]

theorem ofNat_cons_lt_iff {v w : Nat} (small : v < 256) (small' : w < 256) {l m : List UInt8} :
    UInt8.ofNat v :: l < UInt8.ofNat w :: m ↔ v < w ∨ v = w ∧ l < m := by
  rw [List.cons_lt_cons_iff, UInt8.lt_iff_toNat_lt, ← UInt8.toNat_inj,
    UInt8.toNat_ofNat_of_lt' small, UInt8.toNat_ofNat_of_lt' small']

theorem utf8EncodeChar_cases (c : Char) :
    (c.toNat < 128 ∧ String.utf8EncodeChar c = [UInt8.ofNat c.toNat]) ∨
    (128 ≤ c.toNat ∧ c.toNat < 2048 ∧ String.utf8EncodeChar c =
      [UInt8.ofNat (192 + c.toNat / 64), UInt8.ofNat (128 + c.toNat % 64)]) ∨
    (2048 ≤ c.toNat ∧ c.toNat < 65536 ∧ String.utf8EncodeChar c =
      [UInt8.ofNat (224 + c.toNat / 4096), UInt8.ofNat (128 + c.toNat / 64 % 64),
        UInt8.ofNat (128 + c.toNat % 64)]) ∨
    (65536 ≤ c.toNat ∧ c.toNat < 1114112 ∧ String.utf8EncodeChar c =
      [UInt8.ofNat (240 + c.toNat / 262144), UInt8.ofNat (128 + c.toNat / 4096 % 64),
        UInt8.ofNat (128 + c.toNat / 64 % 64), UInt8.ofNat (128 + c.toNat % 64)]) := by
  have bound : c.toNat < 1114112 := by
    have valid : c.toNat.isValidChar := c.valid
    unfold Nat.isValidChar at valid
    omega
  unfold String.utf8EncodeChar
  simp only [Char.toNat_val]
  generalize c.toNat = v at bound
  by_cases one : v ≤ 127
  · left
    simp [one]
    omega
  right
  by_cases two : v ≤ 2047
  · left
    have lead : v / 64 % 32 = v / 64 := Nat.mod_eq_of_lt (by omega)
    simp only [one, two, if_true, if_false, lead, Nat.add_comm, and_true]
    omega
  right
  by_cases three : v ≤ 65535
  · left
    have lead : v / 4096 % 16 = v / 4096 := Nat.mod_eq_of_lt (by omega)
    simp only [one, two, three, if_true, if_false, lead, Nat.add_comm, and_true]
    omega
  · right
    have lead : v / 262144 % 8 = v / 262144 := Nat.mod_eq_of_lt (by omega)
    simp only [one, two, three, if_false, lead, Nat.add_comm, and_true]
    omega

theorem digits_lt {v w : Nat} (less : v < w) :
    v / 64 < w / 64 ∨ v / 64 = w / 64 ∧ v % 64 < w % 64 := by
  omega

/-- Codes differ before one of them ends, so what comes after them has no say. -/
theorem utf8EncodeChar_append_lt {c d : Char} (less : c < d) (l m : List UInt8) :
    String.utf8EncodeChar c ++ l < String.utf8EncodeChar d ++ m := by
  have order : c.toNat < d.toNat := less
  -- the digits in base 64, from the lowest on
  have digits := digits_lt order
  have digits' := @digits_lt (c.toNat / 64) (d.toNat / 64)
  have digits'' := @digits_lt (c.toNat / 4096) (d.toNat / 4096)
  simp only [Nat.div_div_eq_div_mul, Nat.reduceMul] at digits' digits''
  rcases utf8EncodeChar_cases c with ⟨top, code⟩ | ⟨low, top, code⟩ | ⟨low, top, code⟩ |
      ⟨low, top, code⟩ <;>
    rcases utf8EncodeChar_cases d with ⟨top', code'⟩ | ⟨low', top', code'⟩ | ⟨low', top', code'⟩ |
      ⟨low', top', code'⟩
  all_goals
    rw [code, code']
    simp (disch := omega) only [List.cons_append, List.nil_append, ofNat_cons_lt_iff]
    grind

theorem flatMap_utf8EncodeChar_lt {s t : List Char} (less : s < t) :
    s.flatMap String.utf8EncodeChar < t.flatMap String.utf8EncodeChar := by
  induction less with
  | nil =>
    rename_i first rest
    cases code : String.utf8EncodeChar first with
    | nil => exact absurd code String.utf8EncodeChar_ne_nil
    | cons byte bytes =>
      rw [List.flatMap_cons, code]
      exact List.nil_lt_cons byte _
  | cons _ ih => exact List.append_left_lt ih
  | rel less => exact utf8EncodeChar_append_lt less _ _

/-- A string is before another one exactly if its bytes are. -/
theorem utf8Bytes_lt_iff {s t : String} : utf8Bytes s < utf8Bytes t ↔ s < t := by
  have onward : ∀ {s t : String}, s < t → utf8Bytes s < utf8Bytes t := by
    intro s t less
    rw [utf8Bytes_eq, utf8Bytes_eq]
    exact flatMap_utf8EncodeChar_lt (String.lt_iff_toList_lt.1 less)
  constructor
  · intro less
    rcases lt_trichotomy s t with before | same | after
    · exact before
    · exact absurd (same ▸ less) (List.lt_irrefl _)
    · exact absurd (onward after) (List.lt_asymm less)
  · exact onward

theorem utf8Bytes_le_iff {s t : String} : utf8Bytes s ≤ utf8Bytes t ↔ s ≤ t := by
  rw [← List.not_lt, ← not_lt, utf8Bytes_lt_iff]

end QuantumLowering
