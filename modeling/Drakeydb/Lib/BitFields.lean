import Mathlib

/-!
# Bit fields of natural numbers

A number is read as a little-endian sequence of fields of `w` bits, that is as `Nat.ofDigits (2 ^
w)` of its fields. Shifts and masks move and select fields; a union of disjoint fields is a sum.
-/

namespace Drakeydb.Lib

open List

/-! ## §1 Shifts and masks -/

/-- A union with a field above is a sum. -/
theorem or_shiftLeft_of_lt {x k : ℕ} (h : x < 2 ^ k) (y : ℕ) : x ||| (y <<< k) = x + y * 2 ^ k := by
  rw [Nat.or_comm, ← Nat.shiftLeft_add_eq_or_of_lt h, Nat.shiftLeft_eq, Nat.add_comm]

/-- A shifted mask selects a field in place. -/
theorem and_shiftLeft_mask (v k w : ℕ) :
    v &&& ((2 ^ w - 1) <<< k) = (v / 2 ^ k % 2 ^ w) * 2 ^ k := by
  rw [← Nat.shiftRight_eq_div_pow, ← Nat.and_two_pow_sub_one_eq_mod, ← Nat.shiftLeft_eq,
    Nat.shiftLeft_and_distrib]
  apply Nat.eq_of_testBit_eq
  intro i
  by_cases hi : k ≤ i <;> simp [Nat.testBit_shiftLeft, Nat.testBit_shiftRight, hi]

/-! ## §2 The bits of a field -/

/-- The bits of a number are those of its fields. -/
theorem testBit_ofDigits {w : ℕ} (hw : 0 < w) {l : List ℕ} (hl : ∀ d ∈ l, d < 2 ^ w) (i : ℕ) :
    (Nat.ofDigits (2 ^ w) l).testBit i = (l.getD (i / w) 0).testBit (i % w) := by
  induction l generalizing i with
  | nil => simp
  | cons d l ih =>
    rw [forall_mem_cons] at hl
    rw [Nat.ofDigits_cons, Nat.add_comm, Nat.testBit_two_pow_mul_add _ hl.1]
    split
    case isTrue h => rw [Nat.div_eq_of_lt h, Nat.mod_eq_of_lt h, getD_cons_zero]
    case isFalse h =>
      obtain ⟨j, rfl⟩ := Nat.exists_eq_add_of_le' (Nat.le_of_not_lt h)
      rw [ih hl.2, Nat.add_sub_cancel, Nat.add_div_right _ hw, Nat.add_mod_right, getD_cons_succ]

theorem add_mul_two_pow_lt {w j a b : ℕ} (ha : a < 2 ^ w) (hb : b < 2 ^ j) :
    a + b * 2 ^ w < 2 ^ (j + w) := by
  calc a + b * 2 ^ w < (b + 1) * 2 ^ w := by rw [Nat.succ_mul]; omega
    _ ≤ 2 ^ j * 2 ^ w := Nat.mul_le_mul_right _ hb
    _ = 2 ^ (j + w) := (pow_add 2 j w).symm

end Drakeydb.Lib
