import Drakeydb.Mvcc.Stamp

/-!
# The Stamper: Minting, Arming, Committing

`MvccClock` and `MvccStamper` of `server/mvcc.{h,cc}`. A shard callback *arms* the keys it
touches, the journal entry *commits* its stamp to every armed key, and the end of the callback
*discards* what is still armed.

The callbacks of the source (`CommitFn`, `EraseFn`) act on a table, so they are functions on an
arbitrary state `σ` here; a `CommitFn` may abort the process (the `CHECK` of `SetExistingMvcc`),
hence `Option σ`. The key arena of the source is only storage for the armed keys' text; an
`Armed` record holds its key directly. One database is modelled, so arms carry no `DbIndex`.

`clock_strictly_monotone` is what every run of the clock guarantees.
-/

namespace Drakeydb.Mvcc

open List

/-! ## §1 The clock -/

/-- `MvccClock`: the last stamp handed out. -/
structure MvccClock where
  last : UInt64
  deriving DecidableEq

/-- `MvccClock::Next`: the wall clock, or one tick past the last stamp. -/
def MvccClock.next (c : MvccClock) (nowMs : UInt64) : MvccClock :=
  let cand := nowMs <<< kCounterBits
  ⟨if cand > c.last then cand else c.last + 1⟩

theorem kCounterBits_toNat_mod : kCounterBits.toNat % 64 = 20 := by decide

variable {nowMs : UInt64}

/-- A clock with room hands out the reading, or one tick past its last stamp. -/
theorem MvccClock.next_toNat {c : MvccClock} (hlast : c.last.toNat + 1 < 2 ^ 64)
    (hnow : nowMs.toNat < 2 ^ 44) :
    (c.next nowMs).last.toNat = max (nowMs.toNat * 2 ^ 20) (c.last.toNat + 1) := by
  have hcand : (nowMs <<< kCounterBits).toNat = nowMs.toNat * 2 ^ 20 := by
    rw [UInt64.toNat_shiftLeft, Nat.shiftLeft_eq, kCounterBits_toNat_mod]
    exact Nat.mod_eq_of_lt (by omega)
  simp only [MvccClock.next, gt_iff_lt, UInt64.lt_iff_toNat_lt, hcand]
  split
  · omega
  · rw [toNat_add_one hlast]
    omega

/-! ## §2 Arms -/

/-- One armed key. `prevStamp` is the key's stamp before the armed mutation. -/
structure Armed (K : Type*) where
  key : K
  tombstone : Bool
  prevStamp : MvccStamp
  deriving DecidableEq

/-- `MvccStamper`. `originHash` is the registry's cache, 0 for an unknown index. -/
structure MvccStamper (K : Type*) where
  clock : MvccClock
  hopStamp : UInt64
  hopStartedMs : UInt64
  armed : List (Armed K)
  originHash : ℕ → UInt64
  unstampedWrites : ℕ
  staleEpoch : ℕ

namespace MvccStamper

variable {K : Type*}

/-- A stamper before its first write. -/
def init (originHash : ℕ → UInt64) : MvccStamper K :=
  ⟨⟨0⟩, 0, 0, [], originHash, 0, 0⟩

def kMaxEpochMs : UInt64 := 50

/-- Must `HopStamp` mint again?  There is no memo, the clock stepped back, or it is too old. -/
def memoStale (st : MvccStamper K) (nowMs : UInt64) : Bool :=
  let clockSteppedBack := st.hopStamp != 0 && decide (nowMs < st.hopStartedMs)
  let expired := st.hopStamp != 0 && !clockSteppedBack &&
    decide (nowMs - st.hopStartedMs > kMaxEpochMs)
  st.hopStamp == 0 || clockSteppedBack || expired

/-- `HopStamp`: the stamp of this hop, kept in `hopStamp` until the memo goes stale. -/
def mintHop (st : MvccStamper K) (nowMs : UInt64) : MvccStamper K :=
  if st.memoStale nowMs then
    let c := st.clock.next nowMs
    { st with
      clock := c
      hopStamp := c.last
      hopStartedMs := nowMs
      staleEpoch := st.staleEpoch + (if st.hopStamp = 0 then 0 else 1) }
  else st

/-- One arm's contribution to the floor: a tick above a real previous stamp, capped. -/
def armFloor (a : Armed K) : UInt64 :=
  if a.prevStamp.mvcc = 0 then 0 else min (a.prevStamp.mvcc + 1) kStampMask

/-- `LocalMintFloor`: the greatest floor over the pending arms. -/
def localMintFloor (st : MvccStamper K) : UInt64 :=
  st.armed.foldl (fun floor a => max floor (armFloor a)) 0

variable [DecidableEq K]

/-- The first pending tombstone arm on a key. -/
def tombstoneArm? (st : MvccStamper K) (key : K) : Option (Armed K) :=
  st.armed.find? fun a => a.tombstone && decide (a.key = key)

/-- The first tombstone arm of a key, and the arms without it. -/
theorem exists_of_tombstoneArm? {st : MvccStamper K} {key : K} {a : Armed K}
    (h : st.tombstoneArm? key = some a) :
    (a.tombstone = true ∧ a.key = key) ∧ ∃ pre post, st.armed = pre ++ a :: post ∧
      (∀ b ∈ pre, b.key = key → b.tombstone = false) ∧
      (st.armed.eraseP fun b => b.tombstone && decide (b.key = key)) = pre ++ post := by
  obtain ⟨ha, pre, post, heq, hpre⟩ := List.find?_eq_some_iff_append.mp h
  refine ⟨by simpa using ha, pre, post, heq, fun b hb hkey => by simpa [hkey] using hpre b hb, ?_⟩
  have hpre' : ∀ b ∈ pre, ¬(b.tombstone && decide (b.key = key)) = true := fun b hb => by
    simpa only [Bool.not_eq_true', Bool.not_eq_true] using hpre b hb
  rw [heq, List.eraseP_append_right _ hpre', List.eraseP_cons, ha]
  rfl

/-- The previous stamp `Arm` records: a placeholder left by a pending delete of the same key
    hands over the stamp that delete captured. -/
def effectivePrev (st : MvccStamper K) (key : K) (prev : MvccStamp) : MvccStamp :=
  if prev.isTombstone ∧ prev.mvcc = 0 then
    match st.tombstoneArm? key with
    | some a => a.prevStamp
    | none => prev
  else prev

def arm (st : MvccStamper K) (key : K) (prev : MvccStamp) : MvccStamper K :=
  { st with armed := st.armed ++ [⟨key, false, st.effectivePrev key prev⟩] }

omit [DecidableEq K] in
def armTombstone (st : MvccStamper K) (key : K) (prev : MvccStamp) : MvccStamper K :=
  { st with armed := st.armed ++ [⟨key, true, prev⟩] }

/-- `Disarm`: every arm of the key goes. -/
def disarm (st : MvccStamper K) (key : K) : MvccStamper K :=
  { st with armed := st.armed.filter fun a => decide (a.key ≠ key) }

/-! ## §3 Commit and the end of an epoch -/

/-- What a `CommitFn` receives: key, stamp, tombstone flag, previous stamp. -/
abbrev CommitFn (K σ : Type*) := σ → K → MvccStamp → Bool → MvccStamp → Option σ

variable {σ : Type*}

omit [DecidableEq K] in
/-- The stamp `Commit` hands to the callback for one arm. -/
def commitStamp (st : MvccStamper K) (mvcc : UInt64) (originIdx : ℕ) (a : Armed K) : MvccStamp :=
  if a.tombstone then ⟨mvcc ||| kTombstoneBit, st.originHash originIdx⟩
  else ⟨mvcc, st.originHash originIdx⟩

omit [DecidableEq K] in
/-- `Commit`: the callback once per arm, in arming order; then nothing is armed. -/
def commit (st : MvccStamper K) (mvcc : UInt64) (originIdx : ℕ) (fn : CommitFn K σ) (s : σ) :
    Option (MvccStamper K × σ) :=
  (st.armed.foldlM
    (fun s a => fn s a.key (st.commitStamp mvcc originIdx a) a.tombstone a.prevStamp) s).map
    fun s' => ({ st with armed := [] }, s')

/-- `CommitOwnTombstone`: consume the key's own tombstone arm. The flag handed to the callback
    says whether the deleted value had a stamp to advance from. -/
def commitOwnTombstone (st : MvccStamper K) (key : K) (fn : CommitFn K σ) (s : σ) :
    Option (Bool × MvccStamper K × σ) :=
  match st.tombstoneArm? key with
  | none => some (false, st, s)
  | some a =>
    let hasPriorStamp := decide (a.prevStamp.mvcc ≠ 0)
    let stamp := if hasPriorStamp then expiryTombstoneFor a.prevStamp else MvccStamp.zero
    (fn s key stamp hasPriorStamp a.prevStamp).map fun s' =>
      (true,
        { st with armed := st.armed.eraseP fun b => b.tombstone && decide (b.key = key) }, s')

omit [DecidableEq K] in
/-- `EndOfWriteEpoch`: undo every uncommitted tombstone arm, discard the rest. -/
def endOfWriteEpoch (st : MvccStamper K) (eraseFn : σ → K → σ) (s : σ) : MvccStamper K × σ :=
  ({ st with
      unstampedWrites := st.unstampedWrites + st.armed.length
      armed := []
      hopStamp := 0
      hopStartedMs := 0 },
   st.armed.foldl (fun s a => if a.tombstone then eraseFn s a.key else s) s)

end MvccStamper

/-! ## §4 Runs of the clock -/

namespace MvccStamper

variable {K : Type*}

/-- The two calls that move the memo. -/
inductive ClockOp
  | hopStamp (nowMs : UInt64)
  | endOfWriteEpoch

/-- A fresh stamp and the reading it was minted at. -/
structure Minted where
  nowMs : UInt64
  stamp : UInt64

def clockStep (st : MvccStamper K) : ClockOp → MvccStamper K
  | .hopStamp nowMs => st.mintHop nowMs
  | .endOfWriteEpoch => (st.endOfWriteEpoch (fun s _ => s) ()).1

/-- What a call mints: nothing while the memo answers. -/
def mintsOf (st : MvccStamper K) : ClockOp → List Minted
  | .hopStamp nowMs => if st.memoStale nowMs then [⟨nowMs, (st.mintHop nowMs).hopStamp⟩] else []
  | .endOfWriteEpoch => []

/-- The stamps minted along a sequence of calls, oldest first. -/
def minted (st : MvccStamper K) : List ClockOp → List Minted
  | [] => []
  | op :: ops => st.mintsOf op ++ (st.clockStep op).minted ops

/-- A call leaves the clock alone, or mints past its last stamp and not below the reading. -/
theorem clockStep_cases (st : MvccStamper K) (op : ClockOp)
    (hroom : st.clock.last.toNat + (st.mintsOf op).length < 2 ^ 64)
    (hnow : ∀ nowMs, op = .hopStamp nowMs → nowMs.toNat < 2 ^ 44) :
    (st.mintsOf op = [] ∧ (st.clockStep op).clock = st.clock) ∨
      ∃ m : Minted, st.mintsOf op = [m] ∧ op = .hopStamp m.nowMs ∧
        (st.clockStep op).clock.last = m.stamp ∧
        m.stamp.toNat = max (m.nowMs.toNat * 2 ^ 20) (st.clock.last.toNat + 1) := by
  cases op with
  | endOfWriteEpoch => exact Or.inl ⟨rfl, rfl⟩
  | hopStamp nowMs =>
    cases hstale : st.memoStale nowMs with
    | false => exact Or.inl (by simp [mintsOf, clockStep, mintHop, hstale])
    | true =>
      have hmint : st.mintsOf (.hopStamp nowMs) = [⟨nowMs, (st.clock.next nowMs).last⟩] := by
        simp [mintsOf, mintHop, hstale]
      rw [hmint, length_singleton] at hroom
      have hnext := MvccClock.next_toNat hroom (hnow nowMs rfl)
      refine Or.inr ⟨_, hmint, rfl, ?_, ?_⟩
      · simp [clockStep, mintHop, hstale]
      · simpa only using hnext

/-- **A run of the clock**, from any stamper whose last stamp is at most `B`, a bound on the
readings too: the stamps grow, one tick at a time past `B`. -/
theorem minted_spec {M : ℕ} (ops : List ClockOp)
    (hnow : ∀ nowMs, ClockOp.hopStamp nowMs ∈ ops → nowMs.toNat ≤ M) {B : ℕ} (hM : M * 2 ^ 20 ≤ B)
    (st : MvccStamper K) (hlast : st.clock.last.toNat ≤ B)
    (hroom : B + (st.minted ops).length < 2 ^ 64) :
    (ops.foldl clockStep st).clock.last.toNat ≤ B + (st.minted ops).length ∧
    (st.minted ops).Pairwise (fun m m' => m.stamp.toNat < m'.stamp.toNat) ∧
    ∀ m ∈ st.minted ops, st.clock.last.toNat < m.stamp.toNat ∧
      m.stamp.toNat ≤ B + (st.minted ops).length ∧ m.nowMs.toNat * 2 ^ 20 ≤ m.stamp.toNat := by
  induction ops generalizing st B with
  | nil => simpa [minted] using hlast
  | cons op ops ih =>
    have hnow' : ∀ nowMs, ClockOp.hopStamp nowMs ∈ ops → nowMs.toNat ≤ M :=
      fun nowMs hmem => hnow nowMs (mem_cons_of_mem _ hmem)
    rw [minted, length_append] at hroom
    rcases clockStep_cases st op (by omega)
      (fun nowMs hop => by have := hnow nowMs (hop ▸ mem_cons_self); omega) with
      ⟨hnone, hclock⟩ | ⟨m, hone, hop, hclock, hstamp⟩
    · rw [hnone] at hroom
      have h := ih hnow' hM (st.clockStep op) (by rw [hclock]; exact hlast) (by simpa using hroom)
      rw [hclock] at h
      simpa [minted, hnone] using h
    · -- the minted stamp is the clock's new last one, at most one tick past the bound
      have hm := hnow m.nowMs (hop ▸ mem_cons_self)
      rw [hone, length_singleton] at hroom
      obtain ⟨hend, hpair, hall⟩ := ih hnow' (hM.trans (Nat.le_succ B)) (st.clockStep op)
        (by rw [hclock]; omega) (by omega)
      rw [hclock] at hall
      have hlen : (st.minted (op :: ops)).length = 1 + ((st.clockStep op).minted ops).length := by
        rw [minted, hone, length_append, length_singleton]
      rw [hlen, minted, hone, foldl_cons]
      refine ⟨by omega, pairwise_cons.mpr ⟨fun m' hm' => (hall m' hm').1, hpair⟩, ?_⟩
      refine forall_mem_cons.mpr ⟨by omega, fun m' hm' => ?_⟩
      have := hall m' hm'
      omega

variable {st : MvccStamper K}

theorem mintHop_hopStamp_ne_zero (hlast : st.clock.last.toNat + 1 < 2 ^ 64)
    (hnow : nowMs.toNat < 2 ^ 44) :
    (st.mintHop nowMs).hopStamp ≠ 0 := by
  cases hstale : st.memoStale nowMs with
  | false =>
    simp only [mintHop, hstale, Bool.false_eq_true, if_false]
    intro h0
    simp [memoStale, h0] at hstale
  | true =>
    have hnext := MvccClock.next_toNat hlast hnow
    simp only [mintHop, hstale, if_true]
    intro h0
    rw [h0, UInt64.toNat_zero] at hnext
    omega

/-- While it is valid, the memo answers every call and the stamper stays as it is. -/
theorem foldl_hopStamp_within (h0 : st.hopStamp ≠ 0) {times : List UInt64}
    (h : ∀ t ∈ times, st.hopStartedMs ≤ t ∧ t - st.hopStartedMs ≤ kMaxEpochMs) :
    (times.map ClockOp.hopStamp).foldl clockStep st = st := by
  induction times with
  | nil => rfl
  | cons t times ih =>
    obtain ⟨⟨hle, hage⟩, hrest⟩ := forall_mem_cons.mp h
    have hstay : st.clockStep (.hopStamp t) = st := by
      simp [clockStep, mintHop, memoStale, h0, hle, hage]
    rw [map_cons, foldl_cons, hstay, ih hrest]

theorem minted_append (st : MvccStamper K) (ops ops' : List ClockOp) :
    st.minted (ops ++ ops') = st.minted ops ++ (ops.foldl clockStep st).minted ops' := by
  induction ops generalizing st with
  | nil => rfl
  | cons op ops ih => simp [minted, minted, ih]

/-- **The clock is strictly monotone.**  Along every sequence of calls, whatever the wall clock
reads, each fresh stamp is above all earlier ones, non-zero and not behind its reading. Bit 63 stays
clear while the readings leave room for the ticks. A memo answers every further call of its epoch
that reads a time between its start and `kMaxEpochMs` later. -/
theorem clock_strictly_monotone (originHash : ℕ → UInt64) (ops : List ClockOp) {M : ℕ}
    (hM : M < 2 ^ 43) (hnow : ∀ nowMs, ClockOp.hopStamp nowMs ∈ ops → nowMs.toNat ≤ M)
    (hcount : ((init originHash : MvccStamper K).minted ops).length < 2 ^ 62) :
    ((init originHash : MvccStamper K).minted ops).Pairwise (fun m m' => m.stamp < m'.stamp) ∧
    (∀ m ∈ (init originHash : MvccStamper K).minted ops,
      m.stamp ≠ 0 ∧ m.nowMs ≤ m.stamp >>> kCounterBits) ∧
    (M * 2 ^ 20 + ((init originHash : MvccStamper K).minted ops).length < 2 ^ 63 →
      ∀ m ∈ (init originHash : MvccStamper K).minted ops, m.stamp &&& kTombstoneBit = 0) ∧
    ∀ (before : List ClockOp) (nowMs : UInt64) (times : List UInt64),
      ops = before ++ .hopStamp nowMs :: times.map .hopStamp →
      let st :=
  (before ++ [ClockOp.hopStamp nowMs]).foldl clockStep (init originHash : MvccStamper K)
      (∀ t ∈ times, st.hopStartedMs ≤ t ∧ t - st.hopStartedMs ≤ kMaxEpochMs) →
      ops.foldl clockStep (init originHash : MvccStamper K) = st := by
  obtain ⟨-, hpair, hall⟩ := minted_spec ops hnow le_rfl (init originHash : MvccStamper K)
    (Nat.zero_le _) (by omega)
  refine ⟨hpair.imp UInt64.lt_iff_toNat_lt.mpr, fun m hm => ?_, fun hroom m hm => ?_, ?_⟩
  · obtain ⟨hpos, -, hms⟩ := hall m hm
    refine ⟨fun h0 => ?_, ?_⟩
    · rw [h0] at hpos
      exact Nat.not_lt_zero _ hpos
    · rw [UInt64.le_iff_toNat_le, UInt64.toNat_shiftRight, kCounterBits_toNat_mod,
        Nat.shiftRight_eq_div_pow, Nat.le_div_iff_mul_le (by decide)]
      exact hms
  · apply UInt64.toNat_inj.mp
    have hle := (hall m hm).2.1
    rw [and_kTombstoneBit_toNat, if_neg (by omega), UInt64.toNat_zero]
  · rintro before nowMs times rfl st htimes
    have hlen := congrArg length (minted_append (init originHash : MvccStamper K) before
      (.hopStamp nowMs :: times.map .hopStamp))
    rw [length_append] at hlen
    have hlast := (minted_spec before (fun t ht => hnow t (mem_append_left _ ht)) le_rfl
      (init originHash : MvccStamper K) (Nat.zero_le _) (by omega)).1
    have hreading := hnow nowMs mem_append_cons_self
    have hst : st.hopStamp ≠ 0 := by
      simp only [st, foldl_append, foldl_cons, foldl_nil]
      exact mintHop_hopStamp_ne_zero (by omega) (by omega)
    rw [append_cons, foldl_append]
    exact foldl_hopStamp_within hst htimes

/-- Two epochs of one stamper, the second on a clock that stepped back. -/
theorem clock_strictly_monotone_stepped_back :
    ((init (fun _ => 0) : MvccStamper Unit).minted [.hopStamp 7, .endOfWriteEpoch, .hopStamp 3]).map
        Minted.stamp = [7340032, 7340033] ∧
      ((init (fun _ => 0) : MvccStamper Unit).minted
        [.hopStamp 7, .endOfWriteEpoch, .hopStamp 3]).Pairwise (fun m m' => m.stamp < m'.stamp) :=
  ⟨by decide, (clock_strictly_monotone (fun _ => 0) _ (by decide : 7 < 2 ^ 43) (by simp)
    (by decide)).1⟩

/-- Calls whose epoch ends right away, all at one reading. -/
def burst (nowMs : UInt64) (n : ℕ) : List ClockOp :=
  (List.replicate n [ClockOp.hopStamp nowMs, .endOfWriteEpoch]).flatten

theorem minted_burst (hnow : nowMs.toNat < 2 ^ 44) (n : ℕ) (st : MvccStamper K)
    (h0 : st.hopStamp = 0)
    (hroom : max (nowMs.toNat * 2 ^ 20) (st.clock.last.toNat + 1) + n < 2 ^ 64) :
    (st.minted (burst nowMs n)).map (fun m => m.stamp.toNat) =
      List.range' (max (nowMs.toNat * 2 ^ 20) (st.clock.last.toNat + 1)) n := by
  induction n generalizing st with
  | zero => rfl
  | succ n ih =>
    have hstale : st.memoStale nowMs = true := by simp [memoStale, h0]
    have hnext := MvccClock.next_toNat (c := st.clock) (by omega) hnow
    have hih := ih ((st.clockStep (.hopStamp nowMs)).clockStep .endOfWriteEpoch) rfl
    have hclock : ((st.clockStep (.hopStamp nowMs)).clockStep .endOfWriteEpoch).clock =
        st.clock.next nowMs := by
      simp [clockStep, mintHop, hstale, endOfWriteEpoch]
    rw [hclock, hnext, max_eq_right (by omega)] at hih
    have hcons : burst nowMs (n + 1) = .hopStamp nowMs :: .endOfWriteEpoch :: burst nowMs n := rfl
    rw [hcons, minted, minted, range'_succ, ← hih (by omega), ← hnext]
    simp [mintsOf, hstale, mintHop]

/-- The last millisecond below bit 63 has room for `2 ^ 20` stamps only: the next one carries into
the tombstone bit, far below `2 ^ 62` stamps and with no reading at `2 ^ 43` or above. -/
theorem clock_carries_into_tombstone_bit :
    (∀ nowMs, ClockOp.hopStamp nowMs ∈ burst 0x7FFFFFFFFFF (2 ^ 20 + 1) → nowMs.toNat < 2 ^ 43) ∧
    ((init (fun _ => 0) : MvccStamper Unit).minted (burst 0x7FFFFFFFFFF (2 ^ 20 + 1))).length <
      2 ^ 62 ∧
    ∃ m ∈ (init (fun _ => 0) : MvccStamper Unit).minted (burst 0x7FFFFFFFFFF (2 ^ 20 + 1)),
      m.stamp &&& kTombstoneBit ≠ 0 := by
  have hmint := minted_burst (by decide : (0x7FFFFFFFFFF : UInt64).toNat < 2 ^ 44) (2 ^ 20 + 1)
    (init (fun _ => 0) : MvccStamper Unit) rfl (by decide)
  refine ⟨fun nowMs hmem => ?_, ?_, ?_⟩
  · simp only [burst, mem_flatten, mem_replicate] at hmem
    obtain ⟨l, ⟨-, rfl⟩, hmem⟩ := hmem
    simp only [mem_cons, ClockOp.hopStamp.injEq, reduceCtorEq, not_mem_nil, or_false] at hmem
    rw [hmem]
    decide
  · have hlen := congrArg length hmint
    rw [length_map, length_range'] at hlen
    rw [hlen]
    decide
  · have hmem : 2 ^ 63 ∈ range' (max ((0x7FFFFFFFFFF : UInt64).toNat * 2 ^ 20)
        ((init (fun _ => 0) : MvccStamper Unit).clock.last.toNat + 1)) (2 ^ 20 + 1) :=
      mem_range'_1.mpr (by decide)
    rw [← hmint] at hmem
    obtain ⟨m, hm, hstamp⟩ := mem_map.mp hmem
    refine ⟨m, hm, fun h0 => ?_⟩
    have h := and_kTombstoneBit_toNat m.stamp
    rw [h0, hstamp] at h
    exact absurd h (by decide)

end MvccStamper

end Drakeydb.Mvcc
