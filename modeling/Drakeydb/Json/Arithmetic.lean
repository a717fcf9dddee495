import Drakeydb.Lib.Ascii
import Drakeydb.Lib.BinaryFloat
import Drakeydb.Json.ScalarEdits

/-!
# Arithmetic on JSON numbers

`BinOpApply` of `server/json_family.cc`. A number is kept as a signed or unsigned integer of
sixty-four bits or as a `double`, but the operation is always done in `double`, and an integer
result is converted back. Above `2 ^ 53` not every integer is a `double`, and the conversion of a
result that is too large for `uint64_t` is undefined. Numbers of arbitrary size, which are kept as
strings, are left out.
-/

namespace Drakeydb.Json

open Lib.BinaryFloat Lib.Ascii

/-! ## §1 Numbers -/

inductive Number where
  | int64 (value : Int64)
  | uint64 (value : UInt64)
  | double (value : Datum)
  deriving DecidableEq

namespace Number

def asDouble : Number → Datum
  | int64 value => binary64.round value.toInt
  | uint64 value => binary64.round value.toNat
  | double value => value

def isDouble : Number → Bool
  | double _ => true
  | _ => false

/-- The integer, if it is kept as one. -/
def toInt? : Number → Option ℤ
  | int64 value => some value.toInt
  | uint64 value => some value.toNat
  | double _ => none

end Number

/-- The values without children. -/
inductive Scalar where
  | string (value : Bytes)
  | number (value : Number)
  | bool (value : Bool)
  | null
  deriving DecidableEq

/-- What the language leaves undefined: a conversion out of range, or an access to a destroyed
node. -/
inductive Undefined where
  | conversion
  | destroyed
  deriving DecidableEq

/-- The whole part. -/
def truncate (x : ℚ) : ℤ := if 0 ≤ x then ⌊x⌋ else ⌈x⌉

/-- `static_cast<uint64_t>`. -/
def castUint64 : Datum → Except Undefined UInt64
  | .finite x =>
    if 0 ≤ truncate x ∧ truncate x < 18446744073709551616 then .ok (UInt64.ofNat (truncate x).toNat)
    else .error .conversion
  | _ => .error .conversion

/-- `static_cast<int64_t>`. -/
def castInt64 : Datum → Except Undefined Int64
  | .finite x =>
    if -9223372036854775808 ≤ truncate x ∧ truncate x < 9223372036854775808 then
      .ok (Int64.ofInt (truncate x))
    else .error .conversion
  | _ => .error .conversion

inductive ArithmeticOpType where
  | add
  | multiply
  deriving DecidableEq

namespace ArithmeticOpType

/-- The operation on `double`s. -/
def onDouble : ArithmeticOpType → Datum → Datum → Datum
  | add => binary64.add
  | multiply => binary64.mul

/-- The operation that is meant. -/
def apply {α : Type} [Add α] [Mul α] : ArithmeticOpType → α → α → α
  | add => (· + ·)
  | multiply => (· * ·)

end ArithmeticOpType

/-- `BinOpApply`; `none` is an overflow. -/
def binOpApply (op : ArithmeticOpType) (num : Datum) (numIsDouble : Bool) (val : Number) :
    Except Undefined (Option Number) :=
  let result := op.onDouble val.asDouble num
  if result.isInf then .ok none
  else if val.isDouble || numIsDouble then .ok (some (.double result))
  else if result.ge 0 then (castUint64 result).map fun n => some (.uint64 n)
  else if result.ge (-9223372036854775808) then (castInt64 result).map fun i => some (.int64 i)
  else .ok none

/-! ## §2 Integers -/

/-- The integers that can be kept. -/
def IsStorable (z : ℤ) : Prop := -9223372036854775808 ≤ z ∧ z < 18446744073709551616

instance decidableIsStorable (z : ℤ) : Decidable (IsStorable z) :=
  inferInstanceAs (Decidable (_ ∧ _))

theorem truncate_intCast (z : ℤ) : truncate z = z := by
  rw [truncate]
  split
  · exact Int.floor_intCast z
  · exact Int.ceil_intCast z

section Integers

variable {op : ArithmeticOpType} {val : Number} {v : ℤ} {x : ℚ} {z : ℤ}

theorem isStorable_of_toInt? (hv : val.toInt? = some v) : IsStorable v := by
  cases val with
  | int64 value =>
    cases hv
    have hlow := value.le_toInt
    have hhigh := value.toInt_lt
    exact ⟨by omega, by omega⟩
  | uint64 value =>
    cases hv
    have hhigh := value.toNat_lt
    exact ⟨by omega, by omega⟩
  | double value => cases hv

theorem abs_le_of_isStorable (hv : IsStorable v) : |(v : ℚ)| ≤ 2 ^ (64 : ℤ) := by
  obtain ⟨hlow, hhigh⟩ := hv
  have hlow' : (-9223372036854775808 : ℚ) ≤ v := by exact_mod_cast hlow
  have hhigh' : (v : ℚ) < 18446744073709551616 := by exact_mod_cast hhigh
  have hpow : (2 : ℚ) ^ (64 : ℤ) = 18446744073709551616 := by norm_num
  rw [hpow, abs_le]
  constructor <;> linarith

theorem asDouble_of_toInt? (hv : val.toInt? = some v) :
    val.asDouble = .finite (binary64.nearest v) ∧ val.isDouble = false := by
  have hround : binary64.round v = .finite (binary64.nearest v) :=
    binary64.round_of_not_overflows
      (binary64.not_overflows (k := 64) (by decide)
        (abs_le_of_isStorable (isStorable_of_toInt? hv)))
  cases val with
  | int64 value =>
    cases hv
    exact ⟨hround, rfl⟩
  | uint64 value =>
    cases hv
    exact ⟨hround, rfl⟩
  | double value => cases hv

/-- The operation on two finite numbers is done exactly and then rounded. -/
theorem onDouble_finite (op : ArithmeticOpType) (a b : ℚ) :
    op.onDouble (.finite a) (.finite b) = binary64.round (op.apply a b) := by
  cases op <;> rfl

theorem apply_intCast (op : ArithmeticOpType) (a b : ℤ) :
    op.apply (a : ℚ) (b : ℚ) = ((op.apply a b : ℤ) : ℚ) := by
  cases op with
  | add => exact (Int.cast_add a b).symm
  | multiply => exact (Int.cast_mul a b).symm

theorem binOpApply_integer (hv : val.toInt? = some v) {y : ℚ}
    (hx : x = op.apply (binary64.nearest v) y) :
    binOpApply op (.finite y) false val =
      if (binary64.round x).isInf then .ok none
      else if (binary64.round x).ge 0 then (castUint64 (binary64.round x)).map fun n =>
        some (.uint64 n)
      else if (binary64.round x).ge (-9223372036854775808) then
        (castInt64 (binary64.round x)).map fun i => some (.int64 i)
      else .ok none := by
  obtain ⟨hdouble, hnot⟩ := asDouble_of_toInt? hv
  simp [binOpApply, hdouble, hnot, onDouble_finite, ← hx]

/-- The result of an operation that is rounded to an integer: it is stored if it is in range,
refused if it is too small, and undefined if it is too large. -/
theorem binOpApply_of_not_overflows (hv : val.toInt? = some v) {y : ℚ}
    (hx : x = op.apply (binary64.nearest v) y) (hover : ¬ binary64.Overflows x)
    (hz : binary64.nearest x = z) :
    binOpApply op (.finite y) false val =
      if 18446744073709551616 ≤ z then .error .conversion
      else if 0 ≤ z then .ok (some (.uint64 (UInt64.ofNat z.toNat)))
      else if -9223372036854775808 ≤ z then .ok (some (.int64 (Int64.ofInt z)))
      else .ok none := by
  have hround : binary64.round x = .finite z := by rw [binary64.round_of_not_overflows hover, hz]
  have hge : ∀ bound : ℤ, (Datum.finite z).ge bound = decide (bound ≤ z) := by
    intro bound
    exact decide_eq_decide.mpr Int.cast_le
  have hzero := hge 0
  have hmin := hge (-9223372036854775808)
  push_cast at hzero hmin
  rw [binOpApply_integer hv hx, hround, hzero, hmin, castUint64, castInt64, truncate_intCast]
  simp only [Datum.isInf, Bool.false_eq_true, if_false, decide_eq_true_eq]
  by_cases hlarge : 18446744073709551616 ≤ z
  · rw [if_pos (by omega), if_neg (by omega), if_pos hlarge]
    rfl
  · rw [if_neg hlarge]
    by_cases hnonneg : 0 ≤ z
    · rw [if_pos hnonneg, if_pos hnonneg, if_pos ⟨hnonneg, by omega⟩]
      rfl
    · rw [if_neg hnonneg, if_neg hnonneg]
      by_cases hlow : -9223372036854775808 ≤ z
      · rw [if_pos hlow, if_pos hlow, if_pos ⟨hlow, by omega⟩]
        rfl
      · rw [if_neg hlow, if_neg hlow]

theorem toInt?_uint64 (hnonneg : 0 ≤ z) (hlt : z < 18446744073709551616) :
    (Number.uint64 (UInt64.ofNat z.toNat)).toInt? = some z := by
  have hnat : z.toNat < 2 ^ 64 := by omega
  rw [Number.toInt?, UInt64.toNat_ofNat', Nat.mod_eq_of_lt hnat, Int.toNat_of_nonneg hnonneg]

theorem toInt?_int64 (hlow : -9223372036854775808 ≤ z) (hneg : z < 0) :
    (Number.int64 (Int64.ofInt z)).toInt? = some z := by
  rw [Number.toInt?, Int64.toInt_ofInt_of_le (by omega) (by omega)]

theorem exists_nearest_apply (op : ArithmeticOpType) (v n : ℤ) :
    ∃ z : ℤ, binary64.nearest (op.apply (binary64.nearest v) (binary64.nearest n)) = z := by
  obtain ⟨a, ha⟩ := binary64.exists_nearest_intCast v
  obtain ⟨b, hb⟩ := binary64.exists_nearest_intCast n
  rw [ha, hb, apply_intCast]
  exact binary64.exists_nearest_intCast _

theorem binOpApply_of_overflows (hv : val.toInt? = some v) {n : ℤ}
    (hx : x = op.apply (binary64.nearest v) (binary64.nearest n)) (hover : binary64.Overflows x) :
    binOpApply op (.finite (binary64.nearest n)) false val = .ok none := by
  rw [binOpApply_integer hv hx, binary64.round_of_overflows hover]
  rfl

/-- **Which results are stored**: an integer in range is stored exactly if it is what the rounded
operation is rounded to. -/
theorem binOpApply_eq_iff (hv : val.toInt? = some v) {n e : ℤ} (he : IsStorable e)
    (hx : x = op.apply (binary64.nearest v) (binary64.nearest n)) :
    (∃ r, binOpApply op (.finite (binary64.nearest n)) false val = .ok (some r) ∧
      r.toInt? = some e) ↔ binary64.nearest x = e := by
  obtain ⟨z, hz⟩ := exists_nearest_apply op v n
  rw [← hx] at hz
  by_cases hover : binary64.Overflows x
  · -- too large for a double, and so for an integer
    have hinf := binOpApply_of_overflows hv hx hover
    constructor
    · rintro ⟨r, hr, -⟩
      rw [hinf] at hr
      cases hr
    · intro heq
      have hle := (binary64.two_zpow_maxExp_le_iff x).mpr hover
      rw [heq] at hle
      have hlt : (2 : ℚ) ^ (64 : ℤ) < 2 ^ binary64.maxExp :=
        zpow_lt_zpow_right₀ (by norm_num) (by decide)
      exact absurd (hle.trans (abs_le_of_isStorable he)) (not_le.mpr hlt)
  · have hstore := binOpApply_of_not_overflows hv hx hover hz
    rw [hstore, hz, Int.cast_inj]
    obtain ⟨hlow, hhigh⟩ := he
    by_cases hlarge : 18446744073709551616 ≤ z
    · rw [if_pos hlarge]
      exact ⟨fun ⟨r, hr, _⟩ => (by cases hr), fun heq => by omega⟩
    rw [if_neg hlarge]
    by_cases hnonneg : 0 ≤ z
    · rw [if_pos hnonneg]
      have hint := toInt?_uint64 hnonneg (by omega)
      constructor
      · rintro ⟨r, hr, hre⟩
        cases hr
        exact Option.some.inj (hint.symm.trans hre)
      · rintro rfl
        exact ⟨_, rfl, hint⟩
    rw [if_neg hnonneg]
    by_cases hmin : -9223372036854775808 ≤ z
    · rw [if_pos hmin]
      have hint := toInt?_int64 hmin (by omega)
      constructor
      · rintro ⟨r, hr, hre⟩
        cases hr
        exact Option.some.inj (hint.symm.trans hre)
      · rintro rfl
        exact ⟨_, rfl, hint⟩
    · rw [if_neg hmin]
      exact ⟨fun ⟨r, hr, _⟩ => (by cases hr), fun heq => by omega⟩

/-- Below this the rounded operation is rounded to less than any integer that can be kept. -/
def lowerEnd : ℚ := -(2 ^ 63 + 2 ^ 10)

/-- From here on it is rounded to infinity. -/
def upperEnd : ℚ := 2 ^ 1024 - 2 ^ 970

theorem nearest_lt_iff (x : ℚ) : binary64.nearest x < -9223372036854775808 ↔ x < lowerEnd := by
  have hpow : (2 : ℚ) ^ (63 : ℤ) = 9223372036854775808 := by norm_num
  have hhalf : (2 : ℚ) ^ ((63 : ℤ) - binary64.precision) = 1024 := by
    rw [show ((63 : ℤ) - binary64.precision) = 10 by decide]
    norm_num
  have hend : lowerEnd = -(9223372036854775808 + 1024) := by
    rw [lowerEnd]
    norm_num
  rcases le_total 0 x with hx | hx
  · have hnonneg := binary64.nearest_nonneg hx
    constructor <;> intro h <;> linarith
  · have hiff := binary64.nearest_le_two_zpow_iff (x := -x) (k := 63) (by decide) (by linarith)
    rw [Format.nearest_neg, hpow, hhalf] at hiff
    constructor
    · intro h
      by_contra hge
      linarith [hiff.mpr (by linarith)]
    · intro h
      by_contra hge
      linarith [hiff.mp (by linarith)]

theorem overflows_iff (x : ℚ) : binary64.Overflows x ↔ upperEnd ≤ |x| := by
  have hmax : binary64.maxExp = 1024 := rfl
  have hlast : binary64.maxExp - binary64.precision - 1 = 970 := rfl
  norm_cast

theorem neg_upperEnd_lt : -upperEnd < lowerEnd := by
  have hlarge : (2 : ℚ) ^ 970 ≤ 2 ^ 1023 := pow_le_pow_right₀ (by norm_num) (by decide)
  have hsmall : (2 : ℚ) ^ 64 ≤ 2 ^ 1023 := pow_le_pow_right₀ (by norm_num) (by decide)
  rw [lowerEnd, upperEnd, pow_succ, mul_two]
  -- the large powers are not to be evaluated
  generalize (2 : ℚ) ^ 1023 = a at *
  generalize (2 : ℚ) ^ 970 = b at *
  linarith

/-- **Which results are refused.** -/
theorem binOpApply_ok_none_iff (hv : val.toInt? = some v) {n : ℤ}
    (hx : x = op.apply (binary64.nearest v) (binary64.nearest n)) :
    binOpApply op (.finite (binary64.nearest n)) false val = .ok none ↔ x < lowerEnd ∨
      upperEnd ≤ x := by
  by_cases hover : binary64.Overflows x
  · have hinf := binOpApply_of_overflows hv hx hover
    refine ⟨fun _ => ?_, fun _ => hinf⟩
    rcases le_abs'.mp ((overflows_iff x).mp hover) with hneg | hpos
    · exact .inl (by linarith [neg_upperEnd_lt])
    · exact .inr hpos
  · obtain ⟨z, hz⟩ := exists_nearest_apply op v n
    rw [← hx] at hz
    have hbelow : ¬ upperEnd ≤ x :=
      fun hle => hover ((overflows_iff x).mpr (hle.trans (le_abs_self x)))
    have hlow : x < lowerEnd ↔ z < -9223372036854775808 := by
      rw [← nearest_lt_iff, hz]
      norm_cast
    rw [binOpApply_of_not_overflows hv hx hover hz, or_iff_left hbelow, hlow]
    split
    · exact ⟨fun h => (by cases h), fun h => by omega⟩
    split
    · exact ⟨fun h => (by cases h), fun h => by omega⟩
    split
    · exact ⟨fun h => (by cases h), fun h => by omega⟩
    · exact ⟨fun _ => by omega, fun _ => rfl⟩

end Integers

end Drakeydb.Json
