import Mathlib.Algebra.Ring.Nat
import Mathlib.Data.Multiset.AddSub
import Mathlib.Data.Nat.Log
import Mathlib.Data.Nat.Bitwise

/-!
# The cuckoo filter

`CuckooFilter` of `core/cuckoo.{h,cc}`. A sub-filter is a vector of bytes, read as buckets of a
fixed number of slots; a slot holds the fingerprint of a hash, or zero. A hash has two buckets in
each sub-filter, and from one of them and the fingerprint the other one is found. If both are full,
a fingerprint is kicked out and tries its other bucket, and so on; if that does not end in time, all
of it is undone and a new sub-filter is added.

Nested loops that end at the first slot found are searches in the list of the slots they visit. The
power that gives the size of a new sub-filter is computed exactly.

The fingerprints in the slots form a multiset, each with its sub-filter and bucket. The sizes of the
sub-filters are powers of two, each a multiple of the ones before.
-/

namespace Drakeydb.Cuckoo

/-- `CuckooFilterOptions`. -/
structure Options where
  capacity : UInt64
  slotsPerBucket : UInt8
  maxIterations : UInt16
  expansion : UInt16

/-- `CuckooFilter`; `filters` are the sub-filters, the newest one last. -/
structure CuckooFilter where
  slotsPerBucket : ℕ
  maxIterations : ℕ
  expansion : ℕ
  numBuckets : ℕ
  numItems : ℕ
  numDeletes : ℕ
  numKoInserts : ℕ
  filters : List (List UInt8)

def nextPowerOfTwo (n : ℕ) : ℕ := 2 ^ Nat.clog 2 n

/-- `Fingerprint`: never zero. -/
def fingerprint (hash : UInt64) : UInt8 := UInt8.ofNat (hash.toNat % 255 + 1)

def altIndex (fp : UInt8) (index : ℕ) : ℕ := index ^^^ (fp.toNat * 0x5bd1e995)

def kMaxBuckets : ℕ := 72057594037927935

def sizeMax : ℕ := 18446744073709551615

structure LookupParams where
  fp : UInt8
  h1 : ℕ
  h2 : ℕ

def lookupParamsFromHash (hash : UInt64) : LookupParams :=
  let fp := fingerprint hash
  ⟨fp, hash.toNat, altIndex fp hash.toNat⟩

/-- A slot: the number of the sub-filter and the position in it. -/
abbrev Slot := ℕ × ℕ

namespace CuckooFilter

variable (f : CuckooFilter)

/-! ## §1 Slots -/

/-- `NumBuckets` of a sub-filter. -/
def numBucketsOf (i : ℕ) : ℕ := (f.filters.getD i []).length / f.slotsPerBucket

def get (q : Slot) : UInt8 := (f.filters.getD q.1 []).getD q.2 0

def set (q : Slot) (c : UInt8) : CuckooFilter :=
  { f with filters := f.filters.modify q.1 fun sf => sf.set q.2 c }

def bucketSlots (i idx : ℕ) : List Slot :=
  (List.range f.slotsPerBucket).map fun s => (i, idx * f.slotsPerBucket + s)

/-- The slots of two buckets in each of some sub-filters. -/
def probes (filters : List ℕ) (h1 h2 : ℕ) : List Slot :=
  filters.flatMap fun i =>
    f.bucketSlots i (h1 % f.numBucketsOf i) ++ f.bucketSlots i (h2 % f.numBucketsOf i)

/-- The sub-filters from the oldest one. -/
def oldestFirst : List ℕ := List.range f.filters.length

/-- The sub-filters from the newest one. -/
def newestFirst : List ℕ := (List.range f.filters.length).reverse

/-! ## §2 Sub-filters -/

def addNewSubFilter : Bool × CuckooFilter :=
  let growth := f.expansion ^ f.filters.length
  if growth > kMaxBuckets / f.numBuckets then (false, f)
  else
    let bucketCount := f.numBuckets * growth
    if bucketCount > sizeMax / f.slotsPerBucket then (false, f)
    else (true,
      { f with filters := f.filters ++ [List.replicate (bucketCount * f.slotsPerBucket) 0] })

/-- The constructor; with no slots in a bucket it divides by zero. -/
def new (options : Options) : Option CuckooFilter :=
  let slotsPerBucket := options.slotsPerBucket.toNat
  let expansion := if options.expansion ≠ 0 then nextPowerOfTwo options.expansion.toNat else 0
  let numBuckets := nextPowerOfTwo (options.capacity.toNat / slotsPerBucket) % 2 ^ 64
  if slotsPerBucket = 0 then none
  else some (addNewSubFilter
    { slotsPerBucket := slotsPerBucket
      maxIterations := options.maxIterations.toNat
      expansion := expansion % 2 ^ 16
      numBuckets := if numBuckets = 0 then 1 else numBuckets
      numItems := 0
      numDeletes := 0
      numKoInserts := 0
      filters := [] }).2

/-! ## §3 Kicking out -/

/-- The variables of `KOInsert`. -/
structure Kick where
  filter : CuckooFilter
  idx : ℕ
  fp : UInt8
  victimSlot : ℕ

namespace Kick

/-- The slot of the victim in sub-filter `i`. -/
def slot (k : Kick) (i : ℕ) : Slot := (i, k.idx * k.filter.slotsPerBucket + k.victimSlot)

/-- `std::swap` of the victim and the fingerprint in hand. -/
def swap (k : Kick) (i : ℕ) : Kick :=
  { k with filter := k.filter.set (k.slot i) k.fp, fp := k.filter.get (k.slot i) }

/-- To the other bucket of the fingerprint in hand. -/
def jump (k : Kick) (n : ℕ) : Kick := { k with idx := altIndex k.fp k.idx % n }

def nextVictim (k : Kick) : Kick :=
  { k with victimSlot := (k.victimSlot + 1) % k.filter.slotsPerBucket }

def prevVictim (k : Kick) : Kick :=
  { k with victimSlot := (k.victimSlot + k.filter.slotsPerBucket - 1) % k.filter.slotsPerBucket }

/-- One swap, as the first loop does it. -/
def forward (i n : ℕ) (k : Kick) : Kick := ((k.swap i).jump n).nextVictim

/-- One swap, as the second loop undoes it. -/
def backward (i n : ℕ) (k : Kick) : Kick := (k.prevVictim.jump n).swap i

/-- A free slot in the bucket. -/
def free (k : Kick) (i : ℕ) : Option Slot :=
  (k.filter.bucketSlots i k.idx).find? fun q => k.filter.get q = 0

/-- The first loop: the fingerprint in hand is placed, or the rounds are over. -/
def run (i n : ℕ) : ℕ → Kick → CuckooFilter ⊕ Kick
  | 0, k => .inr k
  | rounds + 1, k =>
    let k' := (k.swap i).jump n
    match k'.free i with
    | some q => .inl (k'.filter.set q k'.fp)
    | none => run i n rounds k'.nextVictim

/-- The second loop. -/
def undo (i n : ℕ) : ℕ → Kick → Kick
  | 0, k => k
  | rounds + 1, k => undo i n rounds (k.backward i n)

end Kick

/-- `KOInsert`, in sub-filter `i`. -/
def koInsert (p : LookupParams) (i : ℕ) : Bool × CuckooFilter :=
  let n := f.numBucketsOf i
  match Kick.run i n f.maxIterations ⟨f, p.h1 % n, p.fp, 0⟩ with
  | .inl f' => (true, f')
  | .inr k => (false, (Kick.undo i n f.maxIterations k).filter)

/-! ## §4 Operations -/

/-- `Insert`, with a bound on the rounds of its loop. `filters_.back()` is undefined without a
sub-filter. -/
def insert : ℕ → CuckooFilter → UInt64 → Option (Bool × CuckooFilter)
  | 0, _, _ => none
  | fuel + 1, f, hash =>
    let p := lookupParamsFromHash hash
    match (f.probes f.newestFirst p.h1 p.h2).find? fun q => f.get q = 0 with
    | some q => some (true, { f.set q p.fp with numItems := f.numItems + 1 })
    | none =>
      if f.filters = [] then none
      else
        match f.koInsert p (f.filters.length - 1) with
        | (true, f') =>
          some (true, { f' with numItems := f'.numItems + 1, numKoInserts := f'.numKoInserts + 1 })
        | (false, f') =>
          if f'.expansion = 0 then some (false, f')
          else
            match f'.addNewSubFilter with
            | (false, f'') => some (false, f'')
            | (true, f'') => insert fuel f'' hash

/-- `Exists`. -/
def contains (hash : UInt64) : Bool :=
  let p := lookupParamsFromHash hash
  (f.probes f.oldestFirst p.h1 p.h2).any fun q => f.get q = p.fp

def count (hash : UInt64) : ℕ :=
  let p := lookupParamsFromHash hash
  (f.probes f.oldestFirst p.h1 p.h2).countP fun q => f.get q = p.fp

def insertUnique (fuel : ℕ) (hash : UInt64) : Option (Bool × CuckooFilter) :=
  if f.contains hash then some (false, f) else f.insert fuel hash

def delete (hash : UInt64) : Bool × CuckooFilter :=
  let p := lookupParamsFromHash hash
  match (f.probes f.newestFirst p.h1 p.h2).find? fun q => f.get q = p.fp with
  | some q => (true, { f.set q 0 with numItems := f.numItems - 1, numDeletes := f.numDeletes + 1 })
  | none => (false, f)

def relocateSlot (i bucketIdx slotIdx : ℕ) : Bool × CuckooFilter :=
  let q : Slot := (i, bucketIdx * f.slotsPerBucket + slotIdx)
  let fp := f.get q
  if fp = 0 then (true, f)
  else
    match (f.probes (List.range i) bucketIdx (altIndex fp bucketIdx)).find? fun q' =>
      f.get q' = 0 with
    | some q' => (true, (f.set q' fp).set q 0)
    | none => (false, f)

/-- The buckets and slots of sub-filter `i`, in the order of the loops. -/
def allSlots (i : ℕ) : List (ℕ × ℕ) :=
  (List.range (f.numBucketsOf i)).flatMap fun b => (List.range f.slotsPerBucket).map fun s => (b, s)

/-- One round of the loops of `CompactSingleFilter`. -/
def relocateNext (i : ℕ) (state : Bool × CuckooFilter) (slot : ℕ × ℕ) : Bool × CuckooFilter :=
  let (done, f') := state.2.relocateSlot i slot.1 slot.2
  (state.1 && done, f')

def compactSingleFilter (i : ℕ) : Bool × CuckooFilter :=
  let (fullyEmptied, f') := (f.allSlots i).foldl (relocateNext i) (true, f)
  if fullyEmptied ∧ i = f'.filters.length - 1 then
    (true, { f' with filters := f'.filters.dropLast })
  else (fullyEmptied, f')

/-- The loop of `Compact`. -/
def compactLoop (cont : Bool) : List ℕ → CuckooFilter → CuckooFilter
  | [], f => f
  | i :: rest, f =>
    let (emptied, f') := f.compactSingleFilter i
    if !emptied && !cont then f' else compactLoop cont rest f'

def compact (cont : Bool) : CuckooFilter :=
  { compactLoop cont (List.range' 1 (f.filters.length - 1)).reverse f with numDeletes := 0 }

end CuckooFilter

/-! ## §5 Runs -/

/-- The states of a filter, each with the hashes that were inserted more often than deleted, and how
much more often. A hash is deleted only while it is one of them. -/
inductive Reachable (options : Options) : CuckooFilter → Multiset UInt64 → Prop where
  | new {f} : CuckooFilter.new options = some f → Reachable options f 0
  | inserted {f live fuel hash f'} : Reachable options f live →
      f.insert fuel hash = some (true, f') → Reachable options f' (hash ::ₘ live)
  | refused {f live fuel hash f'} : Reachable options f live →
      f.insert fuel hash = some (false, f') → Reachable options f' live
  | insertedUnique {f live fuel hash f'} : Reachable options f live →
      f.insertUnique fuel hash = some (true, f') → Reachable options f' (hash ::ₘ live)
  | refusedUnique {f live fuel hash f'} : Reachable options f live →
      f.insertUnique fuel hash = some (false, f') → Reachable options f' live
  | deleted {f live hash} : Reachable options f live → hash ∈ live →
      Reachable options (f.delete hash).2 (live.erase hash)
  | compacted {f live} (cont : Bool) : Reachable options f live →
    Reachable options (f.compact cont) live

open List

/-! ## §6 Slots -/

namespace CuckooFilter

variable (f : CuckooFilter)

def slots : List Slot :=
  (List.range f.filters.length).flatMap fun i =>
    (List.range (f.filters.getD i []).length).map (Prod.mk i)

theorem mem_slots {q : Slot} : q ∈ f.slots ↔ q.1 < f.filters.length ∧
    q.2 < (f.filters.getD q.1 []).length := by
  obtain ⟨i, k⟩ := q
  simp [slots]

theorem nodup_slots : f.slots.Nodup := by
  apply nodup_flatMap.mpr
  constructor
  · intro i _
    exact nodup_range.map fun a b h => (Prod.mk.inj h).2
  · apply nodup_range.imp
    intro i j hij q hi hj
    obtain ⟨_, _, rfl⟩ := mem_map.mp hi
    obtain ⟨_, _, heq⟩ := mem_map.mp hj
    exact hij (Prod.mk.inj heq).1.symm

variable {f} (q : Slot) (c : UInt8) (i : ℕ)

theorem getD_modify :
    (f.set q c).filters.getD i [] =
      if q.1 = i then (f.filters.getD i []).set q.2 c else f.filters.getD i [] := by
  rw [set, getD_eq_getElem?_getD, getD_eq_getElem?_getD, getElem?_modify, Option.map_eq_map]
  cases f.filters[i]? with
  | none => simp
  | some sf =>
    simp

theorem length_getD_set :
    ((f.set q c).filters.getD i []).length = (f.filters.getD i []).length := by
  rw [getD_modify]
  split
  · exact length_set
  · rfl

theorem length_filters_set : (f.set q c).filters.length = f.filters.length :=
  length_modify ..

theorem slots_set : (f.set q c).slots = f.slots := by
  rw [slots, slots, length_filters_set]
  exact flatMap_congr fun i _ => by rw [length_getD_set]

theorem get_set_self {q : Slot} (hq : q ∈ f.slots) (c : UInt8) : (f.set q c).get q = c := by
  rw [get, getD_modify, if_pos rfl, getD_eq_getElem?_getD,
    getElem?_set_self ((f.mem_slots.mp hq).2)]
  rfl

theorem get_set_of_ne {q q' : Slot} (hne : q' ≠ q) (c : UInt8) : (f.set q c).get q' = f.get q' := by
  rw [get, get, getD_modify]
  split
  case isTrue hi =>
    have hk : q.2 ≠ q'.2 := fun hk => hne (Prod.ext hi.symm hk.symm)
    rw [getD_eq_getElem?_getD, getElem?_set_ne hk, ← getD_eq_getElem?_getD]
  case isFalse => rfl

theorem set_get : f.set q (f.get q) = f := by
  have hfilters : (f.set q (f.get q)).filters = f.filters := by
    apply ext_getElem?
    intro i
    rw [set, getElem?_modify, Option.map_eq_map]
    cases hsf : f.filters[i]? with
    | none => rfl
    | some sf =>
      by_cases hi : q.1 = i
      · have hget : f.get q = sf[q.2]?.getD 0 := by
          simp [get, hi, hsf]
        rw [Option.map_some, if_pos hi, hget]
        congr 1
        apply ext_getElem?
        intro k
        rw [getElem?_set]
        split
        case isTrue hk =>
          subst hk
          split
          case isTrue hlt => simp [getElem?_eq_getElem hlt]
          case isFalse hge => rw [getElem?_eq_none (Nat.le_of_not_lt hge)]
        case isFalse => rfl
      · simp [if_neg hi]
  cases f
  exact congrArg _ hfilters

theorem set_set (c c' : UInt8) : (f.set q c).set q c' = f.set q c' := by
  have hfilters : ((f.set q c).set q c').filters = (f.set q c').filters := by
    apply ext_getElem?
    intro i
    simp only [set, getElem?_modify, Option.map_eq_map]
    cases f.filters[i]? with
    | none => rfl
    | some sf =>
      by_cases hi : q.1 = i
      · simp [if_pos hi]
      · simp [if_neg hi]
  cases f
  exact congrArg _ hfilters

end CuckooFilter

/-! ## §7 Fingerprints -/

/-- A fingerprint in the filter: its sub-filter, its bucket, and its value. -/
structure Entry where
  filter : ℕ
  bucket : ℕ
  fp : UInt8
  deriving DecidableEq

namespace CuckooFilter

variable (f : CuckooFilter)

/-- What a content of a slot stands for; zero is no fingerprint. -/
def entryOf (q : Slot) (c : UInt8) : Option Entry :=
  if c = 0 then none else some ⟨q.1, q.2 / f.slotsPerBucket, c⟩

/-- The fingerprints of the filter. -/
def entries : Multiset Entry := ↑(f.slots.filterMap fun q => f.entryOf q (f.get q))

/-- The fingerprints outside one slot. -/
def others (q : Slot) : Multiset Entry :=
  ↑((f.slots.erase q).filterMap fun q => f.entryOf q (f.get q))

variable {f} {q : Slot}

theorem entries_eq (hq : q ∈ f.slots) :
    f.entries = ↑(f.entryOf q (f.get q)).toList + f.others q := by
  have hperm := (perm_cons_erase hq).filterMap fun q => f.entryOf q (f.get q)
  rw [entries, Multiset.coe_eq_coe.mpr hperm, others, Multiset.coe_add]
  rw [filterMap_cons]
  cases f.entryOf q (f.get q) <;> rfl

theorem others_set (q : Slot) (c : UInt8) : (f.set q c).others q = f.others q := by
  rw [others, others, slots_set]
  congr 1
  apply filterMap_congr
  intro q' hq'
  have hne : q' ≠ q := ((f.nodup_slots.mem_erase_iff).mp hq').1
  rw [get_set_of_ne hne]
  rfl

theorem entries_set (hq : q ∈ f.slots) (c : UInt8) :
    (f.set q c).entries = ↑(f.entryOf q c).toList + f.others q := by
  have hq' : q ∈ (f.set q c).slots := by rwa [slots_set]
  rw [entries_eq hq', get_set_self hq, others_set]
  rfl

variable {c : UInt8}

theorem entryOf_of_ne (q : Slot) (hc : c ≠ 0) :
    f.entryOf q c = some ⟨q.1, q.2 / f.slotsPerBucket, c⟩ := if_neg hc

/-- **A free slot is filled.** -/
theorem entries_set_of_zero (hq : q ∈ f.slots) (hzero : f.get q = 0) (hc : c ≠ 0) :
    (f.set q c).entries = ⟨q.1, q.2 / f.slotsPerBucket, c⟩ ::ₘ f.entries := by
  have hold : f.entries = f.others q := by
    rw [entries_eq hq, hzero]
    exact Multiset.zero_add _
  rw [entries_set hq, hold, entryOf_of_ne q hc]
  rfl

/-- **A slot is emptied.** -/
theorem entries_set_zero (hq : q ∈ f.slots) (hne : f.get q ≠ 0) :
    f.entries = ⟨q.1, q.2 / f.slotsPerBucket, f.get q⟩ ::ₘ (f.set q 0).entries := by
  have hnew : (f.set q 0).entries = f.others q := by
    rw [entries_set hq]
    exact Multiset.zero_add _
  rw [hnew, entries_eq hq, entryOf_of_ne q hne]
  rfl

/-- **A fingerprint takes the place of another one.** -/
theorem entries_set_of_ne (hq : q ∈ f.slots) (hne : f.get q ≠ 0) (hc : c ≠ 0) :
    ⟨q.1, q.2 / f.slotsPerBucket, f.get q⟩ ::ₘ (f.set q c).entries =
      ⟨q.1, q.2 / f.slotsPerBucket, c⟩ ::ₘ f.entries := by
  rw [entries_set hq, entries_eq hq, entryOf_of_ne q hc, entryOf_of_ne q hne, Option.toList_some,
    Option.toList_some, Multiset.coe_singleton, Multiset.coe_singleton, Multiset.singleton_add,
    Multiset.singleton_add]
  exact Multiset.cons_swap _ _ _

theorem mem_entries {e : Entry} (he : e ∈ f.entries) :
    ∃ q ∈ f.slots, f.get q ≠ 0 ∧ e = ⟨q.1, q.2 / f.slotsPerBucket, f.get q⟩ := by
  obtain ⟨q, hq, hentry⟩ := mem_filterMap.mp (Multiset.mem_coe.mp he)
  rw [entryOf] at hentry
  split at hentry
  · cases hentry
  · next hne => exact ⟨q, hq, hne, (Option.some.inj hentry).symm⟩

theorem entries_mem (hq : q ∈ f.slots) (hne : f.get q ≠ 0) :
    ⟨q.1, q.2 / f.slotsPerBucket, f.get q⟩ ∈ f.entries := by
  rw [entries_set_zero hq hne]
  exact Multiset.mem_cons_self _ _

/-! ## §8 Sizes -/

/-- The sizes of the sub-filters: powers of two times the number of slots in a bucket. -/
structure Shaped (f : CuckooFilter) : Prop where
  slots_pos : 0 < f.slotsPerBucket
  numBuckets : ∃ k, f.numBuckets = 2 ^ k
  expansion : f.expansion = 0 ∨ ∃ e, f.expansion = 2 ^ e
  single : f.expansion = 0 → f.filters.length ≤ 1
  length : ∀ i < f.filters.length,
    (f.filters.getD i []).length = f.numBuckets * f.expansion ^ i * f.slotsPerBucket

variable {i : ℕ}

section

variable (h : f.Shaped)
include h

section

variable (hi : i < f.filters.length)
include hi

theorem Shaped.numBucketsOf : f.numBucketsOf i = f.numBuckets * f.expansion ^ i := by
  rw [CuckooFilter.numBucketsOf, h.length i hi, Nat.mul_div_cancel _ h.slots_pos]

theorem Shaped.numBucketsOf_eq_pow : ∃ k, f.numBucketsOf i = 2 ^ k := by
  obtain ⟨k, hk⟩ := h.numBuckets
  rw [h.numBucketsOf hi, hk]
  rcases h.expansion with hzero | ⟨e, he⟩
  · have hsingle := h.single hzero
    have : i = 0 := by omega
    exact ⟨k, by simp [this]⟩
  · exact ⟨k + e * i, by rw [he, ← pow_mul, pow_add]⟩

theorem Shaped.numBucketsOf_pos : 0 < f.numBucketsOf i := by
  obtain ⟨k, hk⟩ := h.numBucketsOf_eq_pow hi
  rw [hk]
  exact Nat.two_pow_pos k

end

theorem Shaped.numBucketsOf_dvd {j : ℕ} (hji : j ≤ i) (hi : i < f.filters.length) :
    f.numBucketsOf j ∣ f.numBucketsOf i := by
  rw [h.numBucketsOf hi, h.numBucketsOf (Nat.lt_of_le_of_lt hji hi)]
  exact Nat.mul_dvd_mul_left _ (pow_dvd_pow _ hji)

theorem Shaped.length_eq (hi : i < f.filters.length) :
    (f.filters.getD i []).length = f.numBucketsOf i * f.slotsPerBucket := by
  rw [h.length i hi, h.numBucketsOf hi]

end

theorem numBucketsOf_set (q : Slot) (c : UInt8) (i : ℕ) :
    (f.set q c).numBucketsOf i = f.numBucketsOf i := by
  rw [numBucketsOf, numBucketsOf, length_getD_set]
  rfl

theorem Shaped.set (h : f.Shaped) (q : Slot) (c : UInt8) : (f.set q c).Shaped where
  slots_pos := h.slots_pos
  numBuckets := h.numBuckets
  expansion := h.expansion
  single := fun hzero => by
    rw [length_filters_set]
    exact h.single hzero
  length := fun i hi => by
    rw [length_filters_set] at hi
    rw [length_getD_set]
    exact h.length i hi

theorem bucket_of_slot {b s n : ℕ} (hs : s < n) : (b * n + s) / n = b := by
  rw [Nat.mul_comm, Nat.mul_add_div (by omega), Nat.div_eq_of_lt hs, Nat.add_zero]

theorem mem_bucketSlots {idx : ℕ} (hpos : 0 < f.slotsPerBucket) :
    q ∈ f.bucketSlots i idx ↔ q.1 = i ∧ q.2 / f.slotsPerBucket = idx := by
  obtain ⟨j, k⟩ := q
  rw [bucketSlots, mem_map]
  constructor
  · rintro ⟨s, hs, heq⟩
    obtain ⟨rfl, rfl⟩ := Prod.mk.inj heq
    exact ⟨rfl, bucket_of_slot (mem_range.mp hs)⟩
  · rintro ⟨rfl, rfl⟩
    refine ⟨k % f.slotsPerBucket, mem_range.mpr (Nat.mod_lt _ hpos), ?_⟩
    rw [Nat.mul_comm, Nat.div_add_mod]

theorem Shaped.mem_slots_of_div (h : f.Shaped) (hi : q.1 < f.filters.length)
    (hlt : q.2 / f.slotsPerBucket < f.numBucketsOf q.1) : q ∈ f.slots := by
  rw [f.mem_slots, h.length_eq hi]
  exact ⟨hi, (Nat.div_lt_iff_lt_mul h.slots_pos).mp hlt⟩

variable {is : List ℕ} {h1 h2 : ℕ}

theorem mem_probes (hpos : 0 < f.slotsPerBucket) :
    q ∈ f.probes is h1 h2 ↔ q.1 ∈ is ∧ (q.2 / f.slotsPerBucket = h1 % f.numBucketsOf q.1 ∨
      q.2 / f.slotsPerBucket = h2 % f.numBucketsOf q.1) := by
  rw [probes, mem_flatMap]
  simp only [mem_append, mem_bucketSlots hpos]
  constructor
  · rintro ⟨i, hi, ⟨rfl, h⟩ | ⟨rfl, h⟩⟩
    · exact ⟨hi, .inl h⟩
    · exact ⟨hi, .inr h⟩
  · rintro ⟨hi, h | h⟩
    · exact ⟨q.1, hi, .inl ⟨rfl, h⟩⟩
    · exact ⟨q.1, hi, .inr ⟨rfl, h⟩⟩

theorem Shaped.mem_slots_of_probe (h : f.Shaped) (his : ∀ i ∈ is, i < f.filters.length)
    (hq : q ∈ f.probes is h1 h2) : q ∈ f.slots := by
  obtain ⟨hi, hbucket⟩ := (mem_probes h.slots_pos).mp hq
  have hpos := h.numBucketsOf_pos (his _ hi)
  apply h.mem_slots_of_div (his _ hi)
  rcases hbucket with hb | hb
  · rw [hb]
    exact Nat.mod_lt _ hpos
  · rw [hb]
    exact Nat.mod_lt _ hpos

end CuckooFilter

/-! ## §9 Which fingerprint may stand for which hash -/

/-- A fingerprint in bucket `b` of `n` may stand for a hash. -/
def InBucket (n : ℕ) (fp : UInt8) (hash b : ℕ) : Prop := b = hash % n ∨ b = altIndex fp hash % n

instance decidableInBucket (n : ℕ) (fp : UInt8) (hash b : ℕ) : Decidable (InBucket n fp hash b) :=
  inferInstanceAs (Decidable (_ ∨ _))

/-- An entry may stand for a hash. -/
def Holds (size : ℕ → ℕ) (hash : UInt64) (e : Entry) : Prop :=
  e.fp = fingerprint hash ∧ InBucket (size e.filter) e.fp hash.toNat e.bucket

instance decidableHolds (size : ℕ → ℕ) (hash : UInt64) (e : Entry) :
    Decidable (Holds size hash e) :=
  inferInstanceAs (Decidable (_ ∧ _))

theorem fingerprint_ne_zero (hash : UInt64) : fingerprint hash ≠ 0 := by
  intro h
  have hnat := congrArg UInt8.toNat h
  change (hash.toNat % 255 + 1) % 2 ^ 8 = 0 at hnat
  omega

theorem altIndex_altIndex (fp : UInt8) (index : ℕ) : altIndex fp (altIndex fp index) = index := by
  simp [altIndex]

theorem altIndex_mod (fp : UInt8) (index k : ℕ) :
    altIndex fp (index % 2 ^ k) % 2 ^ k = altIndex fp index % 2 ^ k := by
  rw [altIndex, altIndex, Nat.xor_mod_two_pow, Nat.xor_mod_two_pow, Nat.mod_mod]

variable {fp : UInt8} {hash b : ℕ}

/-- A fingerprint may go to its other bucket. -/
theorem InBucket.jump {k : ℕ} (h : InBucket (2 ^ k) fp hash b) :
    InBucket (2 ^ k) fp hash (altIndex fp b % 2 ^ k) := by
  rcases h with rfl | rfl
  · exact .inr (altIndex_mod fp hash k)
  · refine .inl ?_
    rw [altIndex_mod, altIndex_altIndex]

/-- The bucket of an older sub-filter follows from that of a newer one. -/
theorem InBucket.mod {m k : ℕ} (hdvd : 2 ^ m ∣ 2 ^ k) (h : InBucket (2 ^ k) fp hash b) :
    InBucket (2 ^ m) fp hash (b % 2 ^ m) := by
  rcases h with rfl | rfl
  · exact .inl (Nat.mod_mod_of_dvd _ hdvd)
  · exact .inr (Nat.mod_mod_of_dvd _ hdvd)

/-- Two hashes with one bucket in common have both in common, and in all older sub-filters. -/
theorem InBucket.swap {m k : ℕ} {hash hash' b b' : ℕ} (hdvd : 2 ^ m ∣ 2 ^ k)
    (h : InBucket (2 ^ k) fp hash b)
    (h' : InBucket (2 ^ k) fp hash' b) (hown : InBucket (2 ^ m) fp hash b') :
    InBucket (2 ^ m) fp hash' b' := by
  -- the bucket in common, in the older sub-filter
  have hmod := h.mod hdvd
  have hmod' := h'.mod hdvd
  have hjump' := hmod'.jump
  rcases hmod with heq | heq
  · rcases hown with rfl | rfl
    · rwa [← heq]
    · rw [heq, altIndex_mod] at hjump'
      exact hjump'
  · rcases hown with rfl | rfl
    · rw [heq, altIndex_mod, altIndex_altIndex] at hjump'
      exact hjump'
    · rwa [← heq]

end Drakeydb.Cuckoo
