import Mathlib.Data.Fintype.Sum
import Mathlib.Tactic.DeriveFintype
import Drakeydb.Lib.RefIndex

/-!
# Buckets of a Dash Segment

The bucket of `core/dash_internal.h`: the slots (`SlotBitmap`, `finger_arr_`, `key`, `value`), the
pointers to stash buckets (`stash_arr_`, `stash_busy_`, `stash_pos_`, `stash_probe_mask_`), the
overflow counter and the version. The bitmaps are read off the slots: a slot is busy when it holds
an entry, and an entry knows whether it probes, that is, whether it is hosted by the neighbour of
its home bucket.
-/

namespace Drakeydb.Dash

open Option Finset

/-! ## §1 Parameters, Hashes and Bucket Ids -/

/-- The template parameters of a segment with the bounds its static assertions ask for. Every
    policy of the repository has at least two regular buckets, which is what keeps a bucket and its
    neighbour apart. -/
structure Policy where
  kSlotNum : ℕ
  kBucketNum : ℕ
  slot_pos : 0 < kSlotNum
  slot_le : kSlotNum ≤ 28
  bucket_two : 2 ≤ kBucketNum
  bucket_lt : kBucketNum + 4 < 255

abbrev kStashBucketNum : ℕ := 4

abbrev kStashFpLen : ℕ := 4

/-- `Hash_t`. -/
abbrev Hash := UInt64

abbrev LogicalBid (P : Policy) := Fin P.kBucketNum

abbrev SlotId (P : Policy) := Fin P.kSlotNum

/-- The index of a stash bucket, in `[0, kStashBucketNum)`. -/
abbrev StashPos := Fin kStashBucketNum

/-- A bucket of the array `bucket_`: first the regular buckets, then the stash buckets. -/
inductive PhysicalBid (P : Policy) where
  | regular (bid : LogicalBid P)
  | stash (pos : StashPos)
  deriving DecidableEq, Fintype

variable {P : Policy} {K V : Type}

theorem Policy.bucket_pos (P : Policy) : 0 < P.kBucketNum :=
  Nat.lt_of_lt_of_le (by decide) P.bucket_two

def homeIndex (P : Policy) (hash : Hash) : LogicalBid P :=
  ⟨(hash >>> 8).toNat % P.kBucketNum, Nat.mod_lt _ P.bucket_pos⟩

/-- The fingerprint `key_hash & kFpMask`. -/
def fpHash (hash : Hash) : UInt8 := hash.toUInt8

def nextBid (bid : LogicalBid P) : LogicalBid P :=
  if h : bid.val + 1 < P.kBucketNum then ⟨bid.val + 1, h⟩ else ⟨0, P.bucket_pos⟩

def prevBid (bid : LogicalBid P) : LogicalBid P :=
  if bid.val = 0 then ⟨P.kBucketNum - 1, Nat.sub_one_lt P.bucket_pos.ne'⟩
  else ⟨bid.val - 1, by omega⟩

variable (bid : LogicalBid P)

theorem nextBid_val :
    (nextBid bid).val = if bid.val + 1 < P.kBucketNum then bid.val + 1 else 0 := by
  unfold nextBid
  split <;> rfl

theorem prevBid_val :
    (prevBid bid).val = if bid.val = 0 then P.kBucketNum - 1 else bid.val - 1 := by
  unfold prevBid
  split <;> rfl

@[simp] theorem nextBid_prevBid : nextBid (prevBid bid) = bid := by
  have hval := prevBid_val bid
  apply Fin.ext
  rw [nextBid_val]
  split_ifs at hval ⊢ <;> omega

@[simp] theorem prevBid_nextBid : prevBid (nextBid bid) = bid := by
  have hval := nextBid_val bid
  apply Fin.ext
  rw [prevBid_val]
  split_ifs at hval ⊢ <;> omega

theorem nextBid_ne : nextBid bid ≠ bid := by
  have := P.bucket_two
  intro h
  have hval := nextBid_val bid
  rw [h] at hval
  split_ifs at hval <;> omega

/-- The slot `kSlotNum - 1`. -/
def lastSlot (P : Policy) : SlotId P := ⟨P.kSlotNum - 1, Nat.sub_one_lt P.slot_pos.ne'⟩

/-- The slot before, for every slot but the first. -/
def prevSlot {P : Policy} (j : SlotId P) : SlotId P :=
  ⟨j.val - 1, Nat.lt_of_le_of_lt (Nat.sub_le ..) j.isLt⟩

/-! ## §2 The Bucket -/

/-- A busy slot: the entry, its fingerprint and its probe bit. -/
structure Slot (K V : Type) where
  key : K
  value : V
  fp : UInt8
  probe : Bool
  deriving DecidableEq

/-- A used stash pointer: one element of `stash_arr_` with its bits of `stash_pos_` and
    `stash_probe_mask_`. -/
structure StashRef where
  fp : UInt8
  pos : StashPos
  probe : Bool
  deriving DecidableEq

@[ext]
structure Bucket (P : Policy) (K V : Type) where
  slot : SlotId P → Option (Slot K V)
  stashRef : Fin kStashFpLen → Option StashRef
  /-- `kStashPresentBit` of `stash_busy_`. -/
  stashPresent : Bool
  overflowCount : UInt8
  version : ℕ

namespace Bucket

variable (b : Bucket P K V)

def empty : Bucket P K V := ⟨fun _ => none, fun _ => none, false, 0, 0⟩

def isBusy (j : SlotId P) : Bool := (b.slot j).isSome

def size : ℕ := (Finset.univ.filter fun j => b.isBusy j = true).card

def isFull : Prop := b.size = P.kSlotNum

instance : Decidable b.isFull := inferInstanceAs (Decidable (_ = _))

/-- `FindEmptySlot`: the lowest free slot. -/
def findEmptySlot : Option (SlotId P) := Fin.find? fun j => !b.isBusy j

/-- `Bucket::Insert` with `SetHash`. -/
def insert (j : SlotId P) (key : K) (value : V) (fp : UInt8) (probe : Bool) : Bucket P K V :=
  { b with slot := Function.update b.slot j (some ⟨key, value, fp, probe⟩) }

/-- `TryInsertToBucket`: `none` when no slot is free. -/
def tryInsertToBucket (key : K) (value : V) (fp : UInt8) (probe : Bool) :
    Option (Bucket P K V × SlotId P) :=
  if b.isFull then none
  else b.findEmptySlot.map fun j => (b.insert j key value fp probe, j)

def delete (j : SlotId P) : Bucket P K V := { b with slot := Function.update b.slot j none }

/-- `ClearSlots`: frees the slots of the mask. -/
def clearSlots (mask : SlotId P → Bool) : Bucket P K V :=
  { b with slot := fun j => if mask j then none else b.slot j }

/-- `GetProbe`: with `probe` the slots of the hosted entries, without it every other slot, the free
    ones included. -/
def getProbe (probe : Bool) (j : SlotId P) : Bool :=
  match b.slot j with
  | some e => e.probe == probe
  | none => !probe

/-- `FindByFp`: the lowest busy slot with this fingerprint and probe bit whose key is accepted. -/
def findByFp (fp : UInt8) (probe : Bool) (pred : K → Bool) : Option (SlotId P) :=
  Fin.find? fun j =>
    match b.slot j with
    | some e => e.fp == fp && e.probe == probe && pred e.key
    | none => false

/-- `UpdateVersion`: a version never goes down. -/
def updateVersion (version : ℕ) : Bucket P K V := { b with version := max b.version version }

def setVersion (version : ℕ) : Bucket P K V := { b with version := version }

def swap (i j : SlotId P) : Bucket P K V := { b with slot := b.slot ∘ Equiv.swap i j }

/-! ### Stash pointers -/

/-- `IterateStash`: the used pointers with this fingerprint and probe bit, in order, until `func`
    returns something. -/
def iterateStash {α : Type} (fp : UInt8) (isProbe : Bool)
    (func : Fin kStashFpLen → StashPos → Option α) : Option (StashPos × α) :=
  Fin.findSome? fun i =>
    match b.stashRef i with
    | some r => if r.fp = fp ∧ r.probe = isProbe then (func i r.pos).map (r.pos, ·) else none
    | none => none

/-- Writes one pointer. -/
def putRef (i : Fin kStashFpLen) (r : Option StashRef) : Bucket P K V :=
  { b with stashRef := Function.update b.stashRef i r }

/-- `SetStash`: takes the lowest free pointer, `none` when all are used. -/
def setStash (fp : UInt8) (pos : StashPos) (probe : Bool) : Option (Bucket P K V) :=
  (Fin.find? fun i => (b.stashRef i).isNone).map fun i => b.putRef i (some ⟨fp, pos, probe⟩)

/-- `ClearStash`: frees the first pointer to this position, `none` when there is none. -/
def clearStash (fp : UInt8) (pos : StashPos) (probe : Bool) : Option (Bucket P K V) :=
  (b.iterateStash fp probe fun i p => if p = pos then some i else none).map fun (_, i) =>
    b.putRef i none

/-- No used pointer has this probe bit (`mask & stash_probe_mask_` and its complement). -/
def noStashRef (probe : Bool) : Bool :=
  decide (∀ i, ∀ r ∈ b.stashRef i, r.probe ≠ probe)

/-! ## §3 Slots -/

variable {b} {j : SlotId P}

theorem size_eq_sum : b.size = ∑ j, (b.isBusy j).toNat := by
  rw [size, card_filter]
  apply sum_congr rfl
  intro j _
  cases b.isBusy j <;> rfl

theorem isFull_iff : b.isFull ↔ ∀ j, b.isBusy j = true := by
  have h : b.size = (univ : Finset (SlotId P)).card ↔ _ := card_filter_eq_iff
  rw [card_fin] at h
  exact h.trans ⟨fun hall j => hall j (mem_univ j), fun hall j _ => hall j⟩

variable {fp : UInt8} {probe : Bool} {value : V} {key : K}

theorem tryInsertToBucket_eq_none : b.tryInsertToBucket key value fp probe = none ↔ b.isFull := by
  unfold tryInsertToBucket
  split
  case isTrue h => simp [h]
  case isFalse h =>
    simp only [map_eq_none_iff, findEmptySlot, Fin.find?_eq_none_iff, isFull_iff]
    simp

variable {b' : Bucket P K V}

/-- **Insertion into a bucket**: the entry goes into a slot that was free. -/
theorem tryInsertToBucket_eq_some (h : b.tryInsertToBucket key value fp probe = some (b', j)) :
    b.slot j = none ∧ b' = b.insert j key value fp probe := by
  unfold tryInsertToBucket at h
  split at h
  case isTrue => cases h
  case isFalse =>
    obtain ⟨i, hi, heq⟩ := map_eq_some_iff.mp h
    have hfree := (Fin.find?_eq_some_iff.mp hi).1
    cases heq
    exact ⟨by simpa [isBusy] using hfree, rfl⟩

variable {pred : K → Bool}

theorem findByFp_eq_some (h : b.findByFp fp probe pred = some j) :
    ∃ e, b.slot j = some e ∧ e.fp = fp ∧ e.probe = probe ∧ pred e.key = true := by
  have hj := (Fin.find?_eq_some_iff.mp h).1
  split at hj
  case h_1 e he => exact ⟨e, he, by simpa [and_assoc] using hj⟩
  case h_2 => cases hj

theorem findByFp_eq_none (h : b.findByFp fp probe pred = none) {e : Slot K V}
    (he : b.slot j = some e) (hfp : e.fp = fp) (hprobe : e.probe = probe) : pred e.key = false := by
  have hj := Fin.find?_eq_none_iff.mp h j
  simpa [he, hfp, hprobe] using hj

/-! ## §4 The Pointers as a Multiset -/

/-- What one pointer contributes to the pointers with a given probe bit. -/
def refOf (probe : Bool) : Option StashRef → Multiset (UInt8 × StashPos)
  | some r => if r.probe = probe then {(r.fp, r.pos)} else 0
  | none => 0

variable (b) in
/-- The pointers of a bucket with this probe bit, as fingerprints with positions. -/
def refs (probe : Bool) : Multiset (UInt8 × StashPos) := ∑ i, refOf probe (b.stashRef i)

theorem mem_refs {x : UInt8 × StashPos} :
    x ∈ b.refs probe ↔ ∃ i, b.stashRef i = some ⟨x.1, x.2, probe⟩ := by
  have hone (r : Option StashRef) : x ∈ refOf probe r ↔ r = some ⟨x.1, x.2, probe⟩ := by
    rcases r with _ | ⟨fp, pos, pr⟩
    · simp [refOf]
    · obtain ⟨xf, xp⟩ := x
      by_cases hpr : pr = probe <;> simp [refOf, hpr, eq_comm]
  simp [refs, Multiset.mem_sum, hone]

theorem refs_putRef (i : Fin kStashFpLen) (r : Option StashRef) (probe : Bool) :
    (b.putRef i r).refs probe + refOf probe (b.stashRef i) = b.refs probe + refOf probe r :=
  Lib.sum_exchange (fun _ r => refOf probe r) b.stashRef i r

theorem noStashRef_iff : b.noStashRef probe = true ↔ b.refs probe = 0 := by
  rw [Multiset.eq_zero_iff_forall_notMem, noStashRef, decide_eq_true_eq]
  constructor
  · rintro h ⟨fp, pos⟩ hmem
    obtain ⟨i, hi⟩ := mem_refs.mp hmem
    exact h i _ hi rfl
  · rintro h i r hr rfl
    exact h (r.fp, r.pos) (mem_refs.mpr ⟨i, hr⟩)

variable {pos : StashPos}

/-- **Setting a pointer**: it takes the place of a free one. -/
theorem setStash_eq_some (h : b.setStash fp pos probe = some b') :
    ∃ i, b.stashRef i = none ∧ b' = b.putRef i (some ⟨fp, pos, probe⟩) := by
  obtain ⟨i, hi, rfl⟩ := map_eq_some_iff.mp h
  exact ⟨i, by simpa using (Fin.find?_eq_some_iff.mp hi).1, rfl⟩

/-- What `IterateStash` returns comes from a pointer with the fingerprint and probe bit asked
for. -/
theorem iterateStash_eq_some {α : Type} {func : Fin kStashFpLen → StashPos → Option α} {a : α}
    (h : b.iterateStash fp probe func = some (pos, a)) :
    ∃ i, b.stashRef i = some ⟨fp, pos, probe⟩ ∧ func i pos = some a := by
  obtain ⟨i, hi, -⟩ := Fin.findSome?_eq_some_iff.mp h
  split at hi
  case h_2 => cases hi
  case h_1 r hr =>
    split at hi
    case isFalse => cases hi
    case isTrue hmatch =>
      obtain ⟨c, hc, heq⟩ := map_eq_some_iff.mp hi
      cases heq
      exact ⟨i, by rw [hr, ← hmatch.1, ← hmatch.2], hc⟩

/-- **Clearing a pointer**: one with this fingerprint, position and probe bit. -/
theorem clearStash_eq_some (h : b.clearStash fp pos probe = some b') :
    ∃ i, b.stashRef i = some ⟨fp, pos, probe⟩ ∧ b' = b.putRef i none := by
  obtain ⟨⟨p, i⟩, hi, rfl⟩ := map_eq_some_iff.mp h
  obtain ⟨j, hj, hfound⟩ := iterateStash_eq_some hi
  by_cases hp : p = pos
  · obtain rfl : j = i := by simpa [hp] using hfound
    exact ⟨j, hp ▸ hj, rfl⟩
  · simp [hp] at hfound

theorem clearStash_eq_none (h : b.clearStash fp pos probe = none) : (fp, pos) ∉ b.refs probe := by
  intro hmem
  obtain ⟨i, hi⟩ := mem_refs.mp hmem
  have hnone := Fin.findSome?_eq_none_iff.mp (map_eq_none_iff.mp h) i
  simp [hi] at hnone

/-- A pointer that `IterateStash` would follow to a hit is followed. -/
theorem iterateStash_ne_none {α : Type}
    {func : Fin kStashFpLen → StashPos → Option α} (hmem : (fp, pos) ∈ b.refs probe)
    (hfunc : ∀ i, func i pos ≠ none) : b.iterateStash fp probe func ≠ none := by
  obtain ⟨i, hi⟩ := mem_refs.mp hmem
  intro hnone
  have hstep := Fin.findSome?_eq_none_iff.mp hnone i
  simp [hi, hfunc] at hstep

end Bucket
end Drakeydb.Dash
