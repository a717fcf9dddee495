import Mathlib.Data.Nat.Bitwise
import Mathlib.Data.Prod.Lex
import Drakeydb.Lib.LwwRegister

/-!
# MVCC Stamps

The per-key version of `server/mvcc.h`: a packed 64-bit word
`(tombstone << 63) | (ms << 20) | counter` and the hash of the author's uuid.

`MvccStamp.lt` is the source's `operator<`, which masks bit 63; equality is raw and does not.
`rank` is the pair of naturals that order compares, so that every fact about accepting,
flooring or advancing a stamp becomes a fact about a lexicographic order.
-/

namespace Drakeydb.Mvcc

/-! ## §1 The packed word -/

/-- Low bits of a stamp that count writes within one millisecond. -/
def kCounterBits : UInt64 := 20

/-- Bit 63 marks a tombstone. -/
def kTombstoneBit : UInt64 := 0x8000000000000000

/-- Everything but bit 63. -/
def kStampMask : UInt64 := ~~~kTombstoneBit

theorem kStampMask_toNat : kStampMask.toNat = 2 ^ 63 - 1 := by decide

variable (x : UInt64)

theorem and_kStampMask_toNat : (x &&& kStampMask).toNat = x.toNat % 2 ^ 63 := by
  exact Nat.and_two_pow_sub_one_eq_mod _ 63

theorem and_kTombstoneBit_toNat :
    (x &&& kTombstoneBit).toNat = if 2 ^ 63 ≤ x.toNat then 2 ^ 63 else 0 := by
  have hbit : kTombstoneBit.toNat = 2 ^ 63 := by decide
  have hlt := x.toNat_lt
  rw [UInt64.toNat_and, hbit, Nat.and_two_pow]
  by_cases h : 2 ^ 63 ≤ x.toNat
  · have htest : x.toNat.testBit 63 = true := by
      rw [Nat.testBit_eq_decide_div_mod_eq]
      simp only [decide_eq_true_eq]
      omega
    rw [htest, if_pos h, Bool.toNat_true, Nat.one_mul]
  · rw [Nat.testBit_lt_two_pow (not_le.mp h), if_neg h, Bool.toNat_false, Nat.zero_mul]

theorem or_kTombstoneBit_toNat : (x ||| kTombstoneBit).toNat = 2 ^ 63 + x.toNat % 2 ^ 63 := by
  have hbit : kTombstoneBit.toNat = 2 ^ 63 := by decide
  have hlow : x.toNat % 2 ^ 63 < 2 ^ 63 := Nat.mod_lt _ (by decide)
  have hlt := x.toNat_lt
  rw [UInt64.toNat_or, hbit]
  by_cases h : 2 ^ 63 ≤ x.toNat
  · have hx : x.toNat = 2 ^ 63 * 1 + x.toNat % 2 ^ 63 := by omega
    have hor := Nat.two_pow_add_eq_or_of_lt hlow 1
    rw [mul_one] at hx hor
    rw [hx, Nat.add_mod_left, Nat.mod_mod, hor, Nat.lor_comm (2 ^ 63), Nat.lor_assoc, Nat.or_self]
  · have hor := Nat.two_pow_add_eq_or_of_lt (not_le.mp h) 1
    rw [Nat.mod_eq_of_lt (not_le.mp h), Nat.lor_comm]
    simpa using hor.symm

theorem toNat_add_one {x : UInt64} (h : x.toNat + 1 < 2 ^ 64) : (x + 1).toNat = x.toNat + 1 := by
  exact Nat.mod_eq_of_lt h

theorem toNat_sub_one {x : UInt64} (h : x ≠ 0) : (x - 1).toNat + 1 = x.toNat := by
  have hx := x.toNat_lt
  have h0 : x.toNat ≠ 0 := fun h0 => h (UInt64.toNat_inj.mp h0)
  rw [UInt64.toNat_sub, UInt64.toNat_one]
  omega

/-! ## §2 Stamps -/

/-- A key's version. `originHash` is the hash of the author node's uuid. -/
structure MvccStamp where
  packed : UInt64
  originHash : UInt64
  deriving DecidableEq

variable (a b : MvccStamp) {m : UInt64}

namespace MvccStamp

/-- The default-constructed stamp. -/
def zero : MvccStamp := ⟨0, 0⟩

instance : Inhabited MvccStamp := ⟨zero⟩

def mvcc (s : MvccStamp) : UInt64 := s.packed &&& kStampMask

def isTombstone (s : MvccStamp) : Bool := (s.packed &&& kTombstoneBit) != 0

def msPart (s : MvccStamp) : UInt64 := s.mvcc >>> kCounterBits

def asTombstone (s : MvccStamp) : MvccStamp := ⟨s.packed ||| kTombstoneBit, s.originHash⟩

/-- The same stamp with bit 63 cleared, as `SetMvcc` and an applied plain write store it. -/
def masked (s : MvccStamp) : MvccStamp := ⟨s.packed &&& kStampMask, s.originHash⟩

/-- The time from which a tombstone may be collected. -/
def deadlineMs (s : MvccStamp) (ttlMs : UInt64) : UInt64 := s.msPart + ttlMs

/-- `operator<`: lexicographic on `(Mvcc(), origin_hash)`, blind to the tombstone bit. -/
def lt (a b : MvccStamp) : Bool :=
  decide (a.mvcc < b.mvcc) || (decide (a.mvcc = b.mvcc) && decide (a.originHash < b.originHash))

/-- What `lt` compares, as a pair of naturals in lexicographic order. -/
def rank (s : MvccStamp) : ℕ ×ₗ ℕ := toLex (s.mvcc.toNat, s.originHash.toNat)

@[simp] theorem zero_mvcc : zero.mvcc = 0 := by decide

@[simp] theorem zero_isTombstone : zero.isTombstone = false := by decide

variable (s : MvccStamp)

theorem mvcc_toNat : s.mvcc.toNat = s.packed.toNat % 2 ^ 63 :=
  and_kStampMask_toNat s.packed

theorem mvcc_toNat_lt : s.mvcc.toNat < 2 ^ 63 := by
  rw [mvcc_toNat]
  exact Nat.mod_lt _ (by decide)

theorem isTombstone_iff : s.isTombstone = true ↔ 2 ^ 63 ≤ s.packed.toNat := by
  have h := and_kTombstoneBit_toNat s.packed
  simp only [isTombstone, bne_iff_ne, ne_eq, ← UInt64.toNat_inj, h, UInt64.toNat_zero]
  split <;> simp_all

theorem mk_mvcc_of_lt (hm : m.toNat < 2 ^ 63) (h : UInt64) : (⟨m, h⟩ : MvccStamp).mvcc = m := by
  apply UInt64.toNat_inj.mp
  rw [mvcc_toNat]
  exact Nat.mod_eq_of_lt hm

theorem mk_isTombstone_of_lt (hm : m.toNat < 2 ^ 63) (h : UInt64) :
    (⟨m, h⟩ : MvccStamp).isTombstone = false := by
  rw [Bool.eq_false_iff, ne_eq, isTombstone_iff]
  exact not_le.mpr hm

theorem toNat_lt_of_lt_kStampMask (hm : m < kStampMask) : m.toNat < 2 ^ 63 := by
  have h := UInt64.lt_iff_toNat_lt.mp hm
  rw [kStampMask_toNat] at h
  omega

theorem rank_lt_iff :
    a.rank < b.rank ↔ a.mvcc.toNat < b.mvcc.toNat ∨
      (a.mvcc.toNat = b.mvcc.toNat ∧ a.originHash.toNat < b.originHash.toNat) :=
  Prod.Lex.toLex_lt_toLex

theorem lt_iff_rank : a.lt b = true ↔ a.rank < b.rank := by
  simp [lt, rank_lt_iff, UInt64.lt_iff_toNat_lt, ← UInt64.toNat_inj]

theorem lt_eq_decide_rank : a.lt b = decide (a.rank < b.rank) := by
  rw [Bool.eq_iff_iff, lt_iff_rank, decide_eq_true_iff]

theorem rank_eq_iff : a.rank = b.rank ↔ a.mvcc = b.mvcc ∧ a.originHash = b.originHash := by
  simp [rank, UInt64.toNat_inj]

@[simp] theorem masked_mvcc : s.masked.mvcc = s.mvcc := by
  apply UInt64.toNat_inj.mp
  simp only [mvcc_toNat, masked, and_kStampMask_toNat, Nat.mod_mod]

@[simp] theorem masked_rank : s.masked.rank = s.rank :=
  (rank_eq_iff _ _).mpr ⟨masked_mvcc s, rfl⟩

@[simp] theorem masked_isTombstone : s.masked.isTombstone = false := by
  rw [Bool.eq_false_iff, ne_eq, isTombstone_iff, masked, and_kStampMask_toNat]
  exact not_le.mpr (Nat.mod_lt _ (by decide))

@[simp] theorem asTombstone_mvcc : s.asTombstone.mvcc = s.mvcc := by
  apply UInt64.toNat_inj.mp
  simp only [mvcc_toNat, asTombstone, or_kTombstoneBit_toNat, Nat.add_mod_left, Nat.mod_mod]

@[simp] theorem asTombstone_isTombstone : s.asTombstone.isTombstone = true := by
  rw [isTombstone_iff, asTombstone, or_kTombstoneBit_toNat]
  exact Nat.le_add_right _ _

theorem masked_eq_self {s : MvccStamp} (h : s.isTombstone = false) : s.masked = s := by
  have hlt : s.packed.toNat < 2 ^ 63 := by
    rw [← not_le, ← isTombstone_iff, h]
    exact Bool.false_ne_true
  cases s with
  | mk p o =>
    simp only [masked, mk.injEq, and_true]
    apply UInt64.toNat_inj.mp
    rw [and_kStampMask_toNat]
    exact Nat.mod_eq_of_lt hlt

theorem asTombstone_eq_self {s : MvccStamp} (h : s.isTombstone = true) : s.asTombstone = s := by
  have hle := (isTombstone_iff s).mp h
  cases s with
  | mk p o =>
    have hlt := p.toNat_lt
    simp only [asTombstone, mk.injEq, and_true]
    apply UInt64.toNat_inj.mp
    rw [or_kTombstoneBit_toNat]
    simp only at hle
    omega

end MvccStamp

/-! ## §3 The merge decision -/

/-- `MergeAccepts`: an absent stamp accepts everything, a stored one only what is newer. -/
def mergeAccepts (stored : Option MvccStamp) (incoming : MvccStamp) : Bool :=
  match stored with
  | none => true
  | some s => s.lt incoming

/-- The merge decision is the last-writer-wins register's, with `rank` as the rank. -/
theorem mergeAccepts_eq_accepts (stored : Option MvccStamp) (incoming : MvccStamp) :
    mergeAccepts stored incoming = Lib.accepts MvccStamp.rank stored incoming := by
  cases stored with
  | none => rfl
  | some s => exact MvccStamp.lt_eq_decide_rank s incoming

/-! ## §4 Expiry tombstones and floored applied stamps -/

/-- `ExpiryTombstoneFor`: one `origin_hash` tick above the value that expired. -/
def expiryTombstoneFor (value : MvccStamp) : MvccStamp :=
  if value.originHash = 0xFFFFFFFFFFFFFFFF then
    ⟨min (value.mvcc + 1) kStampMask ||| kTombstoneBit, 0⟩
  else
    ⟨value.mvcc ||| kTombstoneBit, value.originHash + 1⟩

/-- `FloorAppliedStamp`: an applied write older than what is stored lands one tick below it. -/
def floorAppliedStamp (stored incoming : MvccStamp) : MvccStamp :=
  if stored.mvcc = 0 ∨ incoming.lt stored = false then incoming
  else
    let tombBit := if incoming.isTombstone then kTombstoneBit else 0
    if stored.originHash = 0 then
      ⟨(stored.mvcc - 1) ||| tombBit, 0xFFFFFFFFFFFFFFFF⟩
    else
      ⟨stored.mvcc ||| tombBit, stored.originHash - 1⟩

@[simp] theorem expiryTombstoneFor_isTombstone (value : MvccStamp) :
    (expiryTombstoneFor value).isTombstone = true := by
  unfold expiryTombstoneFor
  split
  · exact MvccStamp.asTombstone_isTombstone ⟨_, 0⟩
  · exact MvccStamp.asTombstone_isTombstone ⟨_, value.originHash + 1⟩

variable {value : MvccStamp}

/-- A value with authority of its own never expires into a placeholder. -/
theorem expiryTombstoneFor_mvcc_ne_zero (h : value.mvcc ≠ 0) :
    (expiryTombstoneFor value).mvcc ≠ 0 := by
  have hlt := value.mvcc_toNat_lt
  have hpos : 0 < value.mvcc.toNat := by
    rw [Nat.pos_iff_ne_zero]
    exact fun h0 => h (UInt64.toNat_inj.mp (by simpa using h0))
  intro h0
  have h0' := congrArg UInt64.toNat h0
  rw [MvccStamp.mvcc_toNat] at h0'
  unfold expiryTombstoneFor at h0'
  split at h0'
  · rw [or_kTombstoneBit_toNat] at h0'
    rw [UInt64.toNat_min, toNat_add_one (by omega), kStampMask_toNat] at h0'
    simp only [UInt64.toNat_zero] at h0'
    omega
  · rw [or_kTombstoneBit_toNat] at h0'
    simp only [UInt64.toNat_zero] at h0'
    omega

variable {stored incoming : MvccStamp}

/-- A guarded apply is never floored: what beats the stored stamp is committed verbatim. -/
theorem floorAppliedStamp_of_lt (h : stored.lt incoming = true) :
    floorAppliedStamp stored incoming = incoming := by
  have hnot : incoming.lt stored = false := by
    rw [Bool.eq_false_iff, ne_eq, MvccStamp.lt_iff_rank]
    exact not_lt.mpr ((MvccStamp.lt_iff_rank _ _).mp h).le
  simp [floorAppliedStamp, hnot]

theorem floorAppliedStamp_of_mvcc_eq_zero {stored : MvccStamp} (incoming : MvccStamp)
    (h : stored.mvcc = 0) : floorAppliedStamp stored incoming = incoming := by
  simp [floorAppliedStamp, h]

/-! ## §5 The stamp order as a number

The order compares two words; read as the digits of one number, the floor of an applied write is
its predecessor and the expiry tombstone its successor, and both word boundaries are ordinary
carries. -/

namespace MvccStamp

/-- The two words of the order as one number. -/
def code (s : MvccStamp) : ℕ := s.mvcc.toNat * 2 ^ 64 + s.originHash.toNat

/-- Neither of two stamps is below the other. -/
def orderEqual (a b : MvccStamp) : Bool := !a.lt b && !b.lt a

/-- The greatest stamp of the order. -/
def maximal : MvccStamp := ⟨kStampMask, 0xFFFFFFFFFFFFFFFF⟩

theorem lt_iff_code : a.lt b = true ↔ a.code < b.code := by
  have ha := a.originHash.toNat_lt
  have hb := b.originHash.toNat_lt
  rw [lt_iff_rank, rank_lt_iff, code, code]
  omega

theorem lt_eq_false_iff_code : a.lt b = false ↔ b.code ≤ a.code := by
  simp [Bool.eq_false_iff, lt_iff_code]

theorem orderEqual_iff_code : a.orderEqual b = true ↔ a.code = b.code := by
  simp only [orderEqual, Bool.and_eq_true, Bool.not_eq_true', lt_eq_false_iff_code]
  exact le_antisymm_iff.symm.trans eq_comm

/-- The code of a stamp whose tombstone bit is set apart: the bit does not count. -/
theorem code_or_of_lt {m tombBit : UInt64} (hm : m.toNat < 2 ^ 63)
    (hbit : tombBit = kTombstoneBit ∨ tombBit = 0) (o : UInt64) :
    (⟨m ||| tombBit, o⟩ : MvccStamp).code = m.toNat * 2 ^ 64 + o.toNat := by
  rcases hbit with rfl | rfl
  · have h := asTombstone_mvcc ⟨m, o⟩
    simp only [asTombstone, mk_mvcc_of_lt hm] at h
    rw [code, h]
  · rw [UInt64.or_zero, code, mk_mvcc_of_lt hm]

theorem code_lt_maximal_iff (v : MvccStamp) : v.orderEqual maximal = false ↔
    v.code + 1 < 2 ^ 127 := by
  have hmax : maximal.code = 2 ^ 127 - 1 := by decide
  have hm := v.mvcc_toNat_lt
  have ho := v.originHash.toNat_lt
  rw [Bool.eq_false_iff, ne_eq, orderEqual_iff_code, hmax, code]
  omega

end MvccStamp

open MvccStamp

theorem floorAppliedStamp_of_not_lt (h : incoming.lt stored = false) :
    floorAppliedStamp stored incoming = incoming := by
  simp [floorAppliedStamp, h]

/-- A floored stamp: the two words of the predecessor, under the incoming tombstone bit. The borrow
    into the upper word stops below bit 63, because a stored stamp is not zero. -/
theorem floorAppliedStamp_words (hpos : stored.mvcc ≠ 0) (hlt : incoming.lt stored = true) :
    ∃ m o : UInt64, m.toNat < 2 ^ 63 ∧ m.toNat * 2 ^ 64 + o.toNat + 1 = stored.code ∧
      floorAppliedStamp stored incoming =
        ⟨m ||| (if incoming.isTombstone then kTombstoneBit else 0), o⟩ := by
  have hm := stored.mvcc_toNat_lt
  simp only [floorAppliedStamp, hpos, hlt, Bool.true_eq_false, or_self, if_false]
  by_cases ho : stored.originHash = 0
  · have hpred := toNat_sub_one hpos
    rw [if_pos ho]
    refine ⟨_, _, by omega, ?_, rfl⟩
    simp only [code, ho, UInt64.reduceToNat]
    omega
  · have hpred := toNat_sub_one ho
    rw [if_neg ho]
    refine ⟨_, _, stored.mvcc_toNat_lt, ?_, rfl⟩
    rw [code]
    omega

theorem code_floorAppliedStamp (hpos : stored.mvcc ≠ 0) (hlt : incoming.lt stored = true) :
    (floorAppliedStamp stored incoming).code + 1 = stored.code := by
  obtain ⟨m, o, hm, hcode, heq⟩ := floorAppliedStamp_words hpos hlt
  rw [heq, code_or_of_lt hm (ite_eq_or_eq _ _ _), hcode]

theorem floorAppliedStamp_isTombstone (stored incoming : MvccStamp) :
    (floorAppliedStamp stored incoming).isTombstone = incoming.isTombstone := by
  by_cases hpos : stored.mvcc = 0
  · rw [floorAppliedStamp_of_mvcc_eq_zero incoming hpos]
  cases hlt : incoming.lt stored with
  | false => rw [floorAppliedStamp_of_not_lt hlt]
  | true =>
    obtain ⟨m, o, hm, -, heq⟩ := floorAppliedStamp_words hpos hlt
    rw [heq]
    cases incoming.isTombstone with
    | false => simpa using mk_isTombstone_of_lt hm o
    | true => exact asTombstone_isTombstone ⟨m, o⟩

theorem code_expiryTombstoneFor (hmax : value.orderEqual maximal = false) :
    (expiryTombstoneFor value).code = value.code + 1 := by
  have hm := value.mvcc_toNat_lt
  have ho := value.originHash.toNat_lt
  rw [code_lt_maximal_iff] at hmax
  rw [expiryTombstoneFor]
  split_ifs with h
  · -- the carry: an exhausted lower word moves into the upper one, which has room
    have hadd : (value.mvcc + 1).toNat = value.mvcc.toNat + 1 := toNat_add_one (by omega)
    have hsucc : (min (value.mvcc + 1) kStampMask).toNat = value.mvcc.toNat + 1 := by
      simp only [code, h, UInt64.reduceToNat] at hmax
      rw [UInt64.toNat_min, hadd, kStampMask_toNat]
      omega
    have hlt : (min (value.mvcc + 1) kStampMask).toNat < 2 ^ 63 := by
      simp only [code, h, UInt64.reduceToNat] at hmax
      omega
    rw [code_or_of_lt hlt (Or.inl rfl), hsucc, code, h]
    simp only [UInt64.reduceToNat]
    omega
  · have hne : value.originHash.toNat ≠ 2 ^ 64 - 1 := fun heq => h (UInt64.toNat_inj.mp heq)
    have hadd : (value.originHash + 1).toNat = value.originHash.toNat + 1 :=
      toNat_add_one (by omega)
    rw [code_or_of_lt hm (Or.inl rfl), hadd, code]
    omega

/-- **The floor of an applied write and the expiry tombstone are the neighbours of a stamp.**  A
write below the stored stamp lands right under it, so that exactly the stored version and everything
newer still wins; a value's tombstone stands right above the value and floors back onto it. The
tombstone bit follows the incoming stamp in one and is always set in the other. -/
theorem floor_expiry_neighbours (v w : MvccStamp) (hv : 0 < v.mvcc) :
    (w.lt v = true → (floorAppliedStamp v w).lt w = false ∧ (floorAppliedStamp v w).lt v = true ∧
        ∀ x, mergeAccepts (some (floorAppliedStamp v w)) x = true ↔
          mergeAccepts (some v) x = true ∨ x.orderEqual v = true) ∧
    (w.lt v = false → floorAppliedStamp v w = w) ∧
    (v.orderEqual maximal = false → v.lt (expiryTombstoneFor v) = true ∧
      (∀ x, ¬ (v.lt x = true ∧ x.lt (expiryTombstoneFor v) = true)) ∧
        (w.lt (expiryTombstoneFor v) = true →
        (floorAppliedStamp (expiryTombstoneFor v) w).orderEqual v = true)) ∧
    (expiryTombstoneFor v).isTombstone = true ∧
    ∀ stored, (floorAppliedStamp stored w).isTombstone = w.isTombstone := by
  have hne : v.mvcc ≠ 0 := fun h => absurd (h ▸ hv) (by decide)
  refine ⟨fun hw => ?_, floorAppliedStamp_of_not_lt, fun hmax => ?_,
    expiryTombstoneFor_isTombstone v, fun stored => floorAppliedStamp_isTombstone stored w⟩
  · have hf := code_floorAppliedStamp hne hw
    rw [lt_iff_code] at hw
    refine ⟨?_, ?_, fun x => ?_⟩
    · rw [lt_eq_false_iff_code]
      omega
    · rw [lt_iff_code]
      omega
    · simp only [mergeAccepts, lt_iff_code, orderEqual_iff_code]
      omega
  · have ht := code_expiryTombstoneFor hmax
    refine ⟨?_, fun x hx => ?_, fun hw => ?_⟩
    · rw [lt_iff_code]
      omega
    · simp only [lt_iff_code] at hx
      omega
    · have hf := code_floorAppliedStamp (expiryTombstoneFor_mvcc_ne_zero hne) hw
      rw [orderEqual_iff_code]
      omega

/-- At both word boundaries: a stored stamp whose lower word is zero borrows, one whose lower word
is full carries. -/
theorem floor_expiry_neighbours_boundary :
    floorAppliedStamp ⟨5, 0⟩ ⟨kTombstoneBit ||| 3, 9⟩ = ⟨kTombstoneBit ||| 4, 0xFFFFFFFFFFFFFFFF⟩ ∧
    (floorAppliedStamp ⟨5, 0⟩ ⟨kTombstoneBit ||| 3, 9⟩).lt ⟨5, 0⟩ = true ∧
    expiryTombstoneFor ⟨5, 0xFFFFFFFFFFFFFFFF⟩ = ⟨kTombstoneBit ||| 6, 0⟩ ∧
    (⟨5, 0xFFFFFFFFFFFFFFFF⟩ : MvccStamp).lt (expiryTombstoneFor ⟨5, 0xFFFFFFFFFFFFFFFF⟩) = true :=
  ⟨by decide, ((floor_expiry_neighbours ⟨5, 0⟩ ⟨kTombstoneBit ||| 3, 9⟩ (by decide)).1
      (by decide)).2.1, by decide,
    ((floor_expiry_neighbours ⟨5, 0xFFFFFFFFFFFFFFFF⟩ ⟨0, 0⟩ (by decide)).2.2.1 (by decide)).1⟩

end Drakeydb.Mvcc
