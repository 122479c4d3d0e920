import QuantumLowering.Number.Numeral
import QuantumLowering.Proofs.Number.Rounding

namespace QuantumLowering

namespace Numeral

def Plain (n : Numeral) : Prop := ∀ c ∈ n.fraction, c.isDigit

theorem digitsValue_eq (start : Nat) (digits : List Char) :
    digitsValue start digits = Nat.ofDigitChars 10 digits start :=
  Nat.ofDigitChars_eq_foldl.symm

@[simp]
theorem digitsValue_toDigits (n : Nat) : digitsValue 0 (Nat.toDigits 10 n) = n := by
  rw [digitsValue_eq, Nat.ofDigitChars_ten_toDigits]

theorem isDigit_of_mem_toDigits {n : Nat} {c : Char} (mem : c ∈ Nat.toDigits 10 n) : c.isDigit :=
  Nat.isDigit_of_mem_toDigits (by decide) (by decide) mem

theorem digitsValue_append (start : Nat) (front back : List Char) :
    digitsValue start (front ++ back) = digitsValue (digitsValue start front) back :=
  List.foldl_append

theorem digitsValue_zeros (start count : Nat) :
    digitsValue start (List.replicate count '0') = start * 10 ^ count := by
  rw [digitsValue_eq, Nat.ofDigitChars_replicate_zero, Nat.mul_comm]

end Numeral

namespace NumeralStyle

open Numeral

variable {n : Nat}

def leadingPlace (n : Nat) (e : Int) : Int := e + (Nat.toDigits 10 n).length - 1

theorem toBinary64?_scientific (negative : Bool) (n : Nat) (e : Int) :
    (scientific negative (Nat.toDigits 10 n) (leadingPlace n e)).toBinary64? =
      Binary64.ofDecimal? negative n e := by
  have nonempty : 0 < (Nat.toDigits 10 n).length := Nat.length_toDigits_pos
  have digits : (scientific negative (Nat.toDigits 10 n) (leadingPlace n e)).coefficient = n := by
    rw [coefficient, scientific, ← digitsValue_append, List.take_append_drop, digitsValue_toDigits]
  have place : (scientific negative (Nat.toDigits 10 n) (leadingPlace n e)).power = e := by
    simp only [power, scientific, Option.getD_some, List.length_drop, leadingPlace]
    omega
  rw [toBinary64?, digits, place]
  rfl

theorem toBinary64?_positional (negative : Bool) (pos : 0 < n) (e : Int)
    (most : leadingPlace n e < 400) :
    (positional negative (Nat.toDigits 10 n) (leadingPlace n e)).toBinary64? =
      Binary64.ofDecimal? negative n e := by
  have value := digitsValue_toDigits n
  have nonempty : 0 < (Nat.toDigits 10 n).length := Nat.length_toDigits_pos
  unfold leadingPlace at *
  generalize Nat.toDigits 10 n = digits at *
  unfold positional toBinary64?
  by_cases below : e + digits.length - 1 < 0
  · -- all digits stand after the point, behind zeros
    simp only [if_pos below, coefficient, power, Option.getD_none, digitsValue_append,
      digitsValue_zeros, Nat.zero_mul, value, List.length_append, List.length_replicate]
    congr 1
    omega
  by_cases spread : (digits.drop ((e + digits.length - 1).toNat + 1)).isEmpty
  · -- zeros fill the places up to the point
    have short : digits.length ≤ (e + digits.length - 1).toNat + 1 := by simpa using spread
    obtain ⟨k, rfl⟩ := Int.eq_ofNat_of_zero_le (show 0 ≤ e by omega)
    have fill : ((k : Int) + digits.length - 1).toNat + 1 - digits.length = k := by omega
    simp only [if_neg below, if_pos spread, coefficient, power, Option.getD_none,
      digitsValue_append, List.take_of_length_le short, value, fill, digitsValue_zeros]
    have point : digitsValue (n * 10 ^ k) ['0'] = n * 10 ^ (k + 1) := by
      rw [Nat.pow_succ, ← Nat.mul_assoc]
      exact digitsValue_zeros _ 1
    rw [point]
    exact Binary64.ofDecimal?_mul_ten_pow pos (show k ≤ 400 by omega)
  · -- the point stands among the digits
    have long : (e + digits.length - 1).toNat + 1 < digits.length := by simpa using spread
    have fill : (e + digits.length - 1).toNat + 1 - digits.length = 0 := by omega
    simp only [if_neg below, if_neg spread, coefficient, power, Option.getD_none, fill,
      List.replicate_zero, List.append_nil, ← digitsValue_append, List.take_append_drop, value,
      List.length_drop]
    congr 1
    omega

/-- The numeral of a number denotes the number. -/
theorem toBinary64?_numeral (style : NumeralStyle) (moderate : style.most ≤ 400) (x : Binary64) :
    (style.numeral x).toBinary64? = some x := by
  unfold numeral
  by_cases zero : x.magnitude = 0
  · obtain ⟨negative, magnitude, finite⟩ := x
    cases zero
    rfl
  have reads := Binary64.readsBack_shortest style.tie zero
  have pos := Binary64.digits_pos_of_readsBack zero reads
  have back : Binary64.ofDecimal? x.negative (x.shortest style.tie).digits
      (x.shortest style.tie).exponent = some x := by simpa [Binary64.readsBack] using reads
  rw [if_neg zero]
  dsimp only
  split
  case isTrue inside =>
    have most : leadingPlace (x.shortest style.tie).digits (x.shortest style.tie).exponent < 400 :=
      Int.lt_of_lt_of_le inside.2 moderate
    exact (toBinary64?_positional x.negative pos _ most).trans back
  case isFalse => exact (toBinary64?_scientific x.negative _ _).trans back

theorem plain_numeral (style : NumeralStyle) (x : Binary64) : (style.numeral x).Plain := by
  have zero : Char.isDigit '0' := by decide
  intro c mem
  unfold numeral at mem
  split at mem
  · simp_all
  dsimp only at mem
  split at mem
  · unfold positional at mem
    split at mem
    · rcases List.mem_append.1 mem with padding | later
      · rwa [List.eq_of_mem_replicate padding]
      · exact isDigit_of_mem_toDigits later
    · dsimp only at mem
      split at mem
      · simp_all
      · exact isDigit_of_mem_toDigits (List.mem_of_mem_drop mem)
  · exact isDigit_of_mem_toDigits (List.mem_of_mem_drop mem)

end NumeralStyle

end QuantumLowering
