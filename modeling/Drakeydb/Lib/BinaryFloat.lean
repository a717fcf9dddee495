import Mathlib.Data.Int.Log
import Mathlib.Data.Rat.Floor

/-!
# Binary floating-point numbers

Rounding to a binary floating-point format, to the nearest number and to the even one of two, as in
IEEE 754. A finite number is given by its value; the two zeros are not told apart.
-/

namespace Drakeydb.Lib.BinaryFloat

open Int

/-! ## §1 Rounding to integers -/

/-- The integer next to a number, and the even one if there are two. -/
def nearestInt (q : ℚ) : ℤ :=
  if q - ⌊q⌋ < 1 / 2 then ⌊q⌋
  else if 1 / 2 < q - ⌊q⌋ then ⌊q⌋ + 1
  else if Even ⌊q⌋ then ⌊q⌋ else ⌊q⌋ + 1

/-- An integer is at most half away, and even if it is just half away. -/
def IsNearestInt (q : ℚ) (m : ℤ) : Prop := |q - m| ≤ 1 / 2 ∧ (|q - m| = 1 / 2 → Even m)

theorem isNearestInt_nearestInt (q : ℚ) : IsNearestInt q (nearestInt q) := by
  have hlow := floor_le q
  have hhigh := lt_floor_add_one q
  rw [nearestInt]
  split
  case isTrue hlt =>
    have habs : |q - ⌊q⌋| = q - ⌊q⌋ := abs_of_nonneg (by linarith)
    exact ⟨by rw [habs]; linarith, fun h => by rw [habs] at h; linarith⟩
  case isFalse hge =>
    have habs : |q - ((⌊q⌋ + 1 : ℤ) : ℚ)| = ⌊q⌋ + 1 - q := by
      push_cast
      rw [abs_of_nonpos (by linarith)]
      ring
    split
    case isTrue hgt => exact ⟨by rw [habs]; linarith, fun h => by rw [habs] at h; linarith⟩
    case isFalse hle =>
      -- just between two integers
      split
      case isTrue heven =>
        have : |q - ⌊q⌋| = q - ⌊q⌋ := abs_of_nonneg (by linarith)
        exact ⟨by rw [this]; linarith, fun _ => heven⟩
      case isFalse hodd =>
        exact ⟨by rw [habs]; linarith, fun _ => even_add_one.mpr hodd⟩

variable {q : ℚ} {m : ℤ}

theorem IsNearestInt.unique {m' : ℤ} (h : IsNearestInt q m) (h' : IsNearestInt q m') : m = m' := by
  wlog hlt : m < m' generalizing m m'
  · rcases lt_trichotomy m m' with hlt' | heq | hgt
    · exact absurd hlt' hlt
    · exact heq
    · exact (this h' h hgt).symm
  obtain ⟨⟨hlow, hhigh⟩, heven⟩ := h.imp_left abs_le.mp
  obtain ⟨⟨hlow', hhigh'⟩, heven'⟩ := h'.imp_left abs_le.mp
  have hsucc : m + 1 ≤ m' := hlt
  have hcast : (m : ℚ) + 1 ≤ m' := by exact_mod_cast hsucc
  -- both are half away, and so both are even, but they are neighbours
  have hq : q = m + 1 / 2 := by linarith
  have hm' : (m' : ℚ) = m + 1 := by linarith
  have heq : m' = m + 1 := by exact_mod_cast hm'
  subst heq
  have hone : Even m := heven (by rw [hq]; norm_num)
  have htwo : Even (m + 1) := heven' (by rw [hq]; push_cast; norm_num)
  exact absurd hone (even_add_one.mp htwo)

theorem nearestInt_eq_iff : nearestInt q = m ↔ IsNearestInt q m :=
  ⟨fun h => h ▸ isNearestInt_nearestInt q, fun h => (isNearestInt_nearestInt q).unique h⟩

theorem nearestInt_intCast (m : ℤ) : nearestInt m = m :=
  nearestInt_eq_iff.mpr ⟨by norm_num, fun h => by norm_num at h⟩

theorem nearestInt_neg (q : ℚ) : nearestInt (-q) = -nearestInt q := by
  obtain ⟨hle, heven⟩ := isNearestInt_nearestInt q
  have habs : |-q - ((-nearestInt q : ℤ) : ℚ)| = |q - nearestInt q| := by
    push_cast
    rw [← abs_neg]
    congr 1
    ring
  exact nearestInt_eq_iff.mpr ⟨by rwa [habs], fun h => (heven (habs ▸ h)).neg⟩

/-- Up to half above an even integer nothing is rounded above it. -/
theorem nearestInt_le_iff (hm : Even m) : nearestInt q ≤ m ↔ q ≤ m + 1 / 2 := by
  obtain ⟨hle, heven⟩ := isNearestInt_nearestInt q
  obtain ⟨hlow, hhigh⟩ := abs_le.mp hle
  constructor
  · intro h
    have hcast : (nearestInt q : ℚ) ≤ m := by exact_mod_cast h
    linarith
  · intro h
    by_contra hgt
    have hsucc : m + 1 ≤ nearestInt q := by omega
    have hcast : (m : ℚ) + 1 ≤ nearestInt q := by exact_mod_cast hsucc
    have heq : (nearestInt q : ℚ) = m + 1 := by linarith
    have hint : nearestInt q = m + 1 := by exact_mod_cast heq
    have hhalf : |q - nearestInt q| = 1 / 2 := by
      rw [abs_of_nonpos (by linarith), heq]
      linarith
    exact absurd hm (even_add_one.mp (hint ▸ heven hhalf))

/-- Down to half below an even integer nothing is rounded below it. -/
theorem le_nearestInt_iff (hm : Even m) : m ≤ nearestInt q ↔ m - 1 / 2 ≤ q := by
  have h := nearestInt_le_iff (q := -q) hm.neg
  rw [nearestInt_neg, neg_le_neg_iff] at h
  rw [h]
  push_cast
  constructor <;> intro h' <;> linarith

theorem nearestInt_le (h : q ≤ m) : nearestInt q ≤ m := by
  obtain ⟨hlow, hhigh⟩ := abs_le.mp (isNearestInt_nearestInt q).1
  have hlt : (nearestInt q : ℚ) < m + 1 := by linarith
  have : nearestInt q < m + 1 := by exact_mod_cast hlt
  omega

theorem le_nearestInt (h : m ≤ q) : m ≤ nearestInt q := by
  have hneg := nearestInt_le (q := -q) (m := -m) (by push_cast; linarith)
  rw [nearestInt_neg] at hneg
  omega

/-! ## §2 Formats -/

theorem two_zpow_pos (k : ℤ) : (0 : ℚ) < 2 ^ k := zpow_pos (by norm_num) k

/-- A binary format: the number of digits, the exponent of the last digit of the smallest numbers,
and the exponent at which the numbers end. -/
structure Format where
  precision : ℕ
  minExp : ℤ
  maxExp : ℤ
  /-- There is a digit after the leading one. -/
  two_le : 2 ≤ precision
  /-- There are numbers with the full precision. -/
  room : minExp + precision ≤ maxExp

/-- `double`. -/
def binary64 : Format where
  precision := 53
  minExp := -1074
  maxExp := 1024
  two_le := by decide
  room := by decide

namespace Format

variable (f : Format)

/-- The exponent of the last digit of the numbers around a value. -/
def lastExp (x : ℚ) : ℤ := max (Int.log 2 |x| + 1 - f.precision) f.minExp

/-- The distance of the numbers around a value. -/
def ulp (x : ℚ) : ℚ := 2 ^ f.lastExp x

/-- Rounding, with exponents that are not bounded above. -/
def nearest (x : ℚ) : ℚ := nearestInt (x / f.ulp x) * f.ulp x

theorem ulp_pos (x : ℚ) : 0 < f.ulp x := by
  exact two_zpow_pos _

theorem lastExp_neg (x : ℚ) : f.lastExp (-x) = f.lastExp x := by simp [lastExp, lastExp]

theorem nearest_neg (x : ℚ) : f.nearest (-x) = -f.nearest x := by
  have hulp : f.ulp (-x) = f.ulp x := by rw [ulp, ulp, lastExp_neg]
  rw [nearest, nearest, hulp, neg_div, nearestInt_neg]
  push_cast
  ring

theorem nearest_nonneg {x : ℚ} (hx : 0 ≤ x) : 0 ≤ f.nearest x := by
  have hle : 0 ≤ nearestInt (x / f.ulp x) :=
    le_nearestInt (by exact_mod_cast div_nonneg hx (f.ulp_pos x).le)
  exact mul_nonneg (by exact_mod_cast hle) (f.ulp_pos x).le

theorem abs_nearest (x : ℚ) : |f.nearest x| = f.nearest |x| := by
  rcases abs_cases x with ⟨habs, hx⟩ | ⟨habs, hx⟩
  · rw [habs, abs_of_nonneg (f.nearest_nonneg hx)]
  · have hneg : 0 ≤ f.nearest (-x) := f.nearest_nonneg (by linarith)
    rw [habs, ← abs_neg, ← nearest_neg, abs_of_nonneg hneg]

/-! ## §3 Powers of two -/

variable {x : ℚ} {k : ℤ}

theorem lastExp_eq (hlow : 2 ^ k ≤ |x|) (hhigh : |x| < 2 ^ (k + 1)) :
    f.lastExp x = max (k + 1 - f.precision) f.minExp := by
  have hpos : 0 < |x| := lt_of_lt_of_le (two_zpow_pos k) hlow
  have hle : k ≤ log 2 |x| := (zpow_le_iff_le_log (by decide) hpos).mp (by exact_mod_cast hlow)
  have hlt : log 2 |x| < k + 1 := (lt_zpow_iff_log_lt (by decide) hpos).mp (by exact_mod_cast hhigh)
  rw [lastExp, show log 2 |x| = k by omega]

theorem lastExp_le (hhigh : |x| < 2 ^ (k + 1)) (hk : f.minExp + f.precision ≤ k + 1) (hx : x ≠ 0) :
    f.lastExp x ≤ k + 1 - f.precision := by
  have hpos : 0 < |x| := abs_pos.mpr hx
  have hlt : log 2 |x| < k + 1 := (lt_zpow_iff_log_lt (by decide) hpos).mp (by exact_mod_cast hhigh)
  rw [lastExp]
  omega

theorem exists_two_zpow_eq (h : f.lastExp x ≤ k) : ∃ m : ℤ, (2 : ℚ) ^ k = m * f.ulp x := by
  refine ⟨2 ^ (k - f.lastExp x).toNat, ?_⟩
  have hcast : ((2 ^ (k - f.lastExp x).toNat : ℤ) : ℚ) = (2 : ℚ) ^ (k - f.lastExp x) := by
    rw [cast_pow, ← zpow_natCast, toNat_of_nonneg (by omega)]
    rfl
  rw [hcast, ulp, ← zpow_add₀ (by norm_num)]
  congr 1
  omega

theorem nearest_le_mul {m : ℤ} (h : x ≤ m * f.ulp x) : f.nearest x ≤ m * f.ulp x := by
  have hle : nearestInt (x / f.ulp x) ≤ m := nearestInt_le ((div_le_iff₀ (f.ulp_pos x)).mpr h)
  exact mul_le_mul_of_nonneg_right (by exact_mod_cast hle) (f.ulp_pos x).le

theorem mul_le_nearest {m : ℤ} (h : m * f.ulp x ≤ x) : m * f.ulp x ≤ f.nearest x := by
  have hle : m ≤ nearestInt (x / f.ulp x) := le_nearestInt ((le_div_iff₀ (f.ulp_pos x)).mpr h)
  exact mul_le_mul_of_nonneg_right (by exact_mod_cast hle) (f.ulp_pos x).le

theorem nearest_zero : f.nearest 0 = 0 := by
  simp [nearest, show nearestInt 0 = 0 from nearestInt_intCast 0]

theorem nearest_le_two_zpow (hk : f.minExp + f.precision ≤ k + 1) (hx : 0 ≤ x) (hle : x ≤ 2 ^ k) :
    f.nearest x ≤ 2 ^ k := by
  rcases hx.eq_or_lt with rfl | hpos
  · rw [nearest_zero]
    exact (two_zpow_pos k).le
  · have hlt : |x| < 2 ^ (k + 1) := by
      rw [abs_of_pos hpos]
      exact lt_of_le_of_lt hle (zpow_lt_zpow_right₀ (by norm_num) (by omega))
    have hprec := f.two_le
    have hlast := f.lastExp_le hlt hk hpos.ne'
    obtain ⟨m, hm⟩ := f.exists_two_zpow_eq (x := x) (k := k) (by omega)
    rw [hm] at hle ⊢
    exact f.nearest_le_mul hle

theorem two_zpow_le_nearest (hk : f.minExp ≤ k) (hle : 2 ^ k ≤ x) : 2 ^ k ≤ f.nearest x := by
  have hpos : 0 < x := lt_of_lt_of_le (two_zpow_pos k) hle
  -- the last digit of `x` may be above `2 ^ k`; then compare with the power of two just below `x`
  have hlog : (2 : ℚ) ^ log 2 x ≤ x := by exact_mod_cast zpow_log_le_self (b := 2) (by decide) hpos
  have hklog : k ≤ log 2 x := (zpow_le_iff_le_log (by decide) hpos).mp (by exact_mod_cast hle)
  have hprec := f.two_le
  obtain ⟨m, hm⟩ := f.exists_two_zpow_eq (x := x) (k := log 2 x) (by
    rw [lastExp, abs_of_pos hpos]
    omega)
  calc (2 : ℚ) ^ k ≤ 2 ^ log 2 x := zpow_le_zpow_right₀ (by norm_num) hklog
    _ = m * f.ulp x := hm
    _ ≤ f.nearest x := f.mul_le_nearest (hm ▸ hlog)

theorem two_zpow_eq_mul (p : ℕ) (k : ℤ) : (2 : ℚ) ^ k = ((2 ^ p : ℤ) : ℚ) * 2 ^ (k - p) := by
  rw [cast_pow, ← zpow_natCast, cast_ofNat, ← zpow_add₀ (by norm_num)]
  congr 1
  omega

theorem even_two_pow {p : ℕ} (h : p ≠ 0) : Even ((2 : ℤ) ^ p) := (even_two).pow_of_ne_zero h

/-- **What is rounded to at most a power of two.** -/
theorem nearest_le_two_zpow_iff (hk : f.minExp + f.precision ≤ k + 1) (hx : 0 ≤ x) :
    f.nearest x ≤ 2 ^ k ↔ x ≤ 2 ^ k + 2 ^ (k - f.precision) := by
  have hprec := f.two_le
  have hpos := two_zpow_pos (k - f.precision)
  rcases le_or_gt x (2 ^ k) with hle | hgt
  · exact ⟨fun _ => by linarith, fun _ => f.nearest_le_two_zpow hk hx hle⟩
  rcases lt_or_ge x (2 ^ (k + 1)) with hlt | hge
  · -- between the power of two and the next one, where the last digit is known
    have hulp : f.ulp x = 2 ^ (k - ((f.precision - 1 : ℕ) : ℤ)) := by
      rw [ulp, f.lastExp_eq (k := k) (by rw [abs_of_nonneg hx]; exact hgt.le)
        (by rwa [abs_of_nonneg hx])]
      congr 1
      omega
    have hhalf : (2 : ℚ) ^ (k - f.precision) = 1 / 2 * f.ulp x := by
      have hexp : k - ((f.precision - 1 : ℕ) : ℤ) = (k - f.precision) + 1 := by omega
      rw [hulp, hexp, zpow_add_one₀ (by norm_num)]
      ring
    have htwo : (2 : ℚ) ^ k = ((2 ^ (f.precision - 1) : ℤ) : ℚ) * f.ulp x := by
      rw [hulp]
      exact two_zpow_eq_mul (f.precision - 1) k
    have hulppos := f.ulp_pos x
    rw [hhalf, htwo, nearest, mul_le_mul_iff_left₀ hulppos, cast_le,
      nearestInt_le_iff (even_two_pow (by omega)), div_le_iff₀ hulppos]
    ring_nf
  · have hnear : (2 : ℚ) ^ (k + 1) ≤ f.nearest x := f.two_zpow_le_nearest (by omega) hge
    have hdouble : (2 : ℚ) ^ (k + 1) = 2 ^ k + 2 ^ k := by
      rw [zpow_add_one₀ (by norm_num)]
      ring
    have hsmall : (2 : ℚ) ^ (k - f.precision) < 2 ^ k :=
      zpow_lt_zpow_right₀ (by norm_num) (by omega)
    constructor <;> intro h <;> linarith

/-- **What is rounded to at least a power of two.** -/
theorem two_zpow_le_nearest_iff (hk : f.minExp + f.precision ≤ k) (hx : 0 ≤ x) :
    2 ^ k ≤ f.nearest x ↔ 2 ^ k - 2 ^ (k - f.precision - 1) ≤ x := by
  have hprec := f.two_le
  have hpos := two_zpow_pos (k - f.precision - 1)
  rcases le_or_gt (2 ^ k) x with hle | hgt
  · exact ⟨fun _ => by linarith, fun _ => f.two_zpow_le_nearest (by omega) hle⟩
  have hdouble : (2 : ℚ) ^ k = 2 ^ (k - 1) + 2 ^ (k - 1) := by
    rw [← mul_two, ← zpow_add_one₀ (by norm_num)]
    congr 1
    omega
  rcases lt_or_ge x (2 ^ (k - 1)) with hlt | hge
  · have hnear : f.nearest x ≤ 2 ^ (k - 1) := f.nearest_le_two_zpow (by omega) hx hlt.le
    have hsmall : (2 : ℚ) ^ (k - f.precision - 1) < 2 ^ (k - 1) :=
      zpow_lt_zpow_right₀ (by norm_num) (by omega)
    constructor <;> intro h <;> linarith
  · have hulp : f.ulp x = 2 ^ (k - f.precision) := by
      rw [ulp, f.lastExp_eq (k := k - 1) (by rwa [abs_of_nonneg hx])
        (by rw [abs_of_nonneg hx, sub_add_cancel]; exact hgt)]
      congr 1
      omega
    have hhalf : (2 : ℚ) ^ (k - f.precision - 1) = 1 / 2 * f.ulp x := by
      rw [hulp, zpow_sub_one₀ (by norm_num)]
      ring
    have htwo : (2 : ℚ) ^ k = ((2 ^ f.precision : ℤ) : ℚ) * f.ulp x := by
      rw [hulp]
      exact two_zpow_eq_mul f.precision k
    have hulppos := f.ulp_pos x
    rw [hhalf, htwo, nearest, mul_le_mul_iff_left₀ hulppos, cast_le,
      le_nearestInt_iff (even_two_pow (by omega)), le_div_iff₀ hulppos]
    ring_nf

/-- What fits its own last digit stays as it is. -/
theorem nearest_eq_self {m : ℤ} (h : x = m * f.ulp x) : f.nearest x = x := by
  have hquot : x / f.ulp x = m := (div_eq_iff (f.ulp_pos x).ne').mpr h
  rw [nearest, hquot, nearestInt_intCast, ← h]

/-- Where the last digit is not beyond the ones, integers stay as they are. -/
theorem nearest_intCast_of_lastExp {z : ℤ} (h : f.lastExp z ≤ 0) : f.nearest z = z := by
  obtain ⟨m, hm⟩ := f.exists_two_zpow_eq (x := z) (k := 0) h
  apply f.nearest_eq_self (m := z * m)
  rw [cast_mul, mul_assoc, ← hm, zpow_zero, mul_one]

/-- A number with an even last digit, at most half that digit away. -/
theorem nearest_eq_mul {m : ℤ} (hulp : f.lastExp x = k) (hle : |x - m * 2 ^ k| ≤ 2 ^ k / 2)
    (heven : Even m) : f.nearest x = m * 2 ^ k := by
  have hpos := two_zpow_pos k
  have hquot : |x / 2 ^ k - m| ≤ 1 / 2 := by
    rw [div_sub' hpos.ne', abs_div, abs_of_pos hpos, div_le_iff₀ hpos, mul_comm (2 ^ k)]
    linarith
  rw [nearest, ulp, hulp, nearestInt_eq_iff.mpr ⟨hquot, fun _ => heven⟩]

/-- **An integer is rounded to an integer.** -/
theorem exists_nearest_intCast (z : ℤ) : ∃ z' : ℤ, f.nearest z = z' := by
  rcases le_total 0 (f.lastExp z) with hle | hneg
  · -- the last digit is a whole number
    refine ⟨nearestInt (z / f.ulp z) * 2 ^ (f.lastExp z).toNat, ?_⟩
    rw [nearest, cast_mul, cast_pow, ← zpow_natCast, toNat_of_nonneg hle]
    rfl
  · exact ⟨z, f.nearest_intCast_of_lastExp hneg⟩

/-- The integers of the format: no more digits than it has, and zeros after them. -/
def HasInt (z : ℤ) : Prop := ∃ k : ℕ, 2 ^ k ∣ z ∧ |z| < 2 ^ (f.precision + k)

/-- **Just the integers of the format stay as they are.** -/
theorem nearest_intCast_iff (hmin : f.minExp ≤ 0) {z : ℤ} : f.nearest z = z ↔ f.HasInt z := by
  rcases eq_or_ne z 0 with rfl | hne
  · exact iff_of_true f.nearest_zero ⟨0, dvd_zero _, by simp⟩
  have hpos : 0 < |(z : ℚ)| := abs_pos.mpr (cast_ne_zero.mpr hne)
  constructor
  · intro hstay
    refine ⟨(f.lastExp z).toNat, ?_, ?_⟩
    · rcases le_total (f.lastExp z) 0 with hle | hge
      · rw [toNat_of_nonpos hle]
        exact one_dvd z
      · -- the last digit is a whole number, and the integer a multiple of it
        have hulp : f.ulp z = 2 ^ (f.lastExp z).toNat := by
          rw [ulp, ← zpow_natCast, toNat_of_nonneg hge]
        refine ⟨nearestInt (z / f.ulp z), ?_⟩
        rw [nearest, mul_comm] at hstay
        generalize nearestInt (z / f.ulp z) = m at hstay ⊢
        rw [hulp] at hstay
        exact_mod_cast hstay.symm
    · have hlt : |(z : ℚ)| < 2 ^ (log 2 |(z : ℚ)| + 1) := by
        exact_mod_cast lt_zpow_succ_log_self (b := 2) (by decide) |(z : ℚ)|
      have hle : log 2 |(z : ℚ)| + 1 ≤ ((f.precision + (f.lastExp z).toNat : ℕ) : ℤ) := by
        have := le_max_left (log 2 |(z : ℚ)| + 1 - f.precision) f.minExp
        rw [← lastExp] at this
        omega
      have hpow := hlt.trans_le (zpow_le_zpow_right₀ (by norm_num) hle)
      rw [zpow_natCast] at hpow
      exact_mod_cast hpow
  · rintro ⟨k, ⟨c, rfl⟩, hlt⟩
    have hlt' : |((2 ^ k * c : ℤ) : ℚ)| < 2 ^ ((f.precision + k - 1 : ℤ) + 1) := by
      rw [sub_add_cancel]
      exact_mod_cast hlt
    have hlast := f.lastExp_le hlt' (by omega) (cast_ne_zero.mpr hne)
    obtain ⟨m, hm⟩ := f.exists_two_zpow_eq (x := ((2 ^ k * c : ℤ) : ℚ)) (k := k) (by omega)
    apply f.nearest_eq_self (m := c * m)
    rw [cast_mul c, mul_assoc, ← hm, zpow_natCast]
    push_cast
    ring

end Format

/-! ## §4 Arithmetic -/

/-- A floating-point number. -/
inductive Datum where
  | finite (value : ℚ)
  | infinite (negative : Bool)
  | nan
  deriving DecidableEq

namespace Datum

def isInf : Datum → Bool
  | infinite _ => true
  | _ => false

/-- Not below a finite number. -/
def ge (x : Datum) (bound : ℚ) : Bool :=
  match x with
  | finite value => decide (bound ≤ value)
  | infinite negative => !negative
  | nan => false

end Datum

namespace Format

variable (f : Format)

/-- Rounding; what reaches the end of the exponents is infinite. -/
def round (x : ℚ) : Datum :=
  if 2 ^ f.maxExp ≤ |f.nearest x| then .infinite (decide (x < 0)) else .finite (f.nearest x)

def add : Datum → Datum → Datum
  | .finite x, .finite y => f.round (x + y)
  | .infinite a, .infinite b => if a = b then .infinite a else .nan
  | .infinite a, .finite _ => .infinite a
  | .finite _, .infinite b => .infinite b
  | .nan, _ => .nan
  | _, .nan => .nan

def mul : Datum → Datum → Datum
  | .finite x, .finite y => f.round (x * y)
  | .infinite a, .infinite b => .infinite (a != b)
  | .infinite a, .finite y => if y = 0 then .nan else .infinite (a != decide (y < 0))
  | .finite x, .infinite b => if x = 0 then .nan else .infinite (b != decide (x < 0))
  | .nan, _ => .nan
  | _, .nan => .nan

/-- The values that are too large for the format. -/
def Overflows (x : ℚ) : Prop := 2 ^ f.maxExp - 2 ^ (f.maxExp - f.precision - 1) ≤ |x|

instance decidableOverflows (x : ℚ) : Decidable (f.Overflows x) :=
  inferInstanceAs (Decidable (_ ≤ _))

theorem two_zpow_maxExp_le_iff (x : ℚ) : 2 ^ f.maxExp ≤ |f.nearest x| ↔ f.Overflows x := by
  rw [abs_nearest, f.two_zpow_le_nearest_iff f.room (abs_nonneg x), Overflows]

variable {x : ℚ}

theorem round_of_overflows (h : f.Overflows x) : f.round x = .infinite (decide (x < 0)) := by
  rw [round, if_pos ((f.two_zpow_maxExp_le_iff x).mpr h)]

theorem round_of_not_overflows (h : ¬ f.Overflows x) : f.round x = .finite (f.nearest x) := by
  rw [round, if_neg (mt (f.two_zpow_maxExp_le_iff x).mp h)]

/-- Below a power of two that is below the end nothing overflows. -/
theorem not_overflows {k : ℤ} (hk : k < f.maxExp) (h : |x| ≤ 2 ^ k) : ¬ f.Overflows x := by
  have hprec := f.two_le
  rw [Overflows, not_le]
  have hle : (2 : ℚ) ^ k ≤ 2 ^ (f.maxExp - 1) := zpow_le_zpow_right₀ (by norm_num) (by omega)
  have hsmall : (2 : ℚ) ^ (f.maxExp - f.precision - 1) < 2 ^ (f.maxExp - 1) :=
    zpow_lt_zpow_right₀ (by norm_num) (by omega)
  have hdouble : (2 : ℚ) ^ f.maxExp = 2 ^ (f.maxExp - 1) + 2 ^ (f.maxExp - 1) := by
    rw [← mul_two, ← zpow_add_one₀ (by norm_num)]
    congr 1
    omega
  linarith

end Format

end Drakeydb.Lib.BinaryFloat
