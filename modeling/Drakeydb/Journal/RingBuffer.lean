import Mathlib.Algebra.BigOperators.Group.List.Basic
import Mathlib.Algebra.Order.Ring.Nat
import Drakeydb.Lib.Run
import Drakeydb.Journal.Streamer

/-!
# The Ring Buffer of a Journal

`JournalSlice` with the bookkeeping that decides what its ring buffer keeps: the bytes of the
buffered items, their ages and the capacity of the buffer. `view` forgets the bookkeeping; what is
left is the journal that streamers read, whose oldest entries disappear for no reason they can see.

Byte counts are natural numbers, so a subtraction that would wrap in the source is a failed check
here, as it is in its debug build. `records` of a run is a ghost: everything recorded since the
buffer was last reset.
-/

namespace Drakeydb.Journal

open List

/-! ## §1 A journal and the records it keeps -/

/-- The ring buffer holds the last of the records made since LSN `start`. -/
structure Keeps (j : JournalSlice) (start : ℕ) (records : List JournalItem) : Prop where
  lsn : j.lsn = start + records.length
  item_lsn : ∀ i item, records[i]? = some item → item.lsn = start + i
  ring : ∃ k, j.ringBuffer = records.drop k

def JournalSlice.getEntry (j : JournalSlice) (lsn : ℕ) : Option Entry :=
  (j.getEntryMeta lsn).map JournalItem.data

namespace Keeps

variable {j : JournalSlice} {start : ℕ} {records : List JournalItem} {lsn : ℕ}

section

variable (h : Keeps j start records)
include h

theorem cleanEntries (count : ℕ) : Keeps (j.cleanEntries count) start records := by
  obtain ⟨k, hring⟩ := h.ring
  exact ⟨h.lsn, h.item_lsn, k + count, by simp [JournalSlice.cleanEntries, hring]⟩

theorem push (entry : Entry) :
    Keeps (j.push (j.itemOf entry)) start (records ++ [j.itemOf entry]) := by
  obtain ⟨hlsn, hitem, k, hring⟩ := h
  refine ⟨by
    simp [JournalSlice.push, hlsn, add_assoc], fun i item hi => ?_, min k records.length, ?_⟩
  · rw [getElem?_append] at hi
    split at hi
    · exact hitem i item hi
    · obtain ⟨hzero, rfl⟩ := List.getElem?_eq_some_iff.mp hi
      rw [length_singleton] at hzero
      have hi' : i = records.length := by omega
      simp [JournalSlice.itemOf, hlsn, hi']
  · rw [JournalSlice.push, hring, drop_append_of_le_length (min_le_right _ _)]
    rcases le_total k records.length with hk | hk
    · simp [hk]
    · simp [hk]

theorem isLSNInBuffer_iff : j.isLSNInBuffer lsn = true ↔ j.lsn ≤ lsn + j.ringBuffer.length ∧
    lsn < j.lsn := by
  obtain ⟨hlsn, hitem, k, hring⟩ := h
  rw [JournalSlice.isLSNInBuffer, hring, head?_drop, getLast?_drop, length_drop]
  rcases Nat.lt_or_ge k records.length with hk | hk
  · have hlast : records.length - 1 < records.length := by omega
    rw [getElem?_eq_getElem hk, if_neg (by omega), getLast?_eq_getElem?, getElem?_eq_getElem hlast]
    have hfront := hitem k _ (getElem?_eq_getElem hk)
    have hback := hitem _ _ (getElem?_eq_getElem hlast)
    dsimp only
    split <;> rw [decide_eq_true_eq] <;> omega
  · rw [getElem?_eq_none hk]
    simp only [Bool.false_eq_true, false_iff, not_and]
    omega

/-- A lookup of an LSN in the buffer finds the record made with that LSN. -/
theorem getEntryMeta (hin : j.isLSNInBuffer lsn = true) :
    start ≤ lsn ∧ lsn < j.lsn ∧
      ∃ item, j.getEntryMeta lsn = some item ∧ records[lsn - start]? = some item := by
  obtain ⟨hle, hlt⟩ := h.isLSNInBuffer_iff.mp hin
  obtain ⟨hlsn, hitem, k, hring⟩ := h
  rw [hring, length_drop] at hle
  have hk : k < records.length := by omega
  have hfront := hitem k _ (getElem?_eq_getElem hk)
  have hindex : k + (lsn - (start + k)) = lsn - start := by omega
  have hin : lsn - start < records.length := by omega
  refine ⟨by omega, hlt, records[lsn - start], ?_, getElem?_eq_getElem hin⟩
  simp [JournalSlice.getEntryMeta, hring, getElem?_eq_getElem hk, hfront, hindex,
    getElem?_eq_getElem hin]

end

end Keeps

/-! ## §2 The buffer and its bookkeeping -/

/-- `sizeof(JournalItem)` of a 64-bit build. -/
def sizeofJournalItem : ℕ := 56

def kMaxTimeEvictionsPerCall : ℕ := 100

def kDefaultBacklogCapacity : ℕ := 8192

/-- A buffered item with its `time_ms` and the capacity of its data string. -/
structure BufferedItem where
  item : JournalItem
  timeMs : ℕ
  dataCapacity : ℕ

def BufferedItem.itemBytes (x : BufferedItem) : ℕ := sizeofJournalItem + x.dataCapacity

/-- The bytes of the items together. -/
def bytesOf (xs : List BufferedItem) : ℕ := (xs.map BufferedItem.itemBytes).sum

@[simp] theorem bytesOf_nil : bytesOf [] = 0 := rfl

@[simp] theorem bytesOf_cons (x : BufferedItem) (xs : List BufferedItem) :
    bytesOf (x :: xs) = x.itemBytes + bytesOf xs := by
  simp [bytesOf]

theorem bytesOf_append (xs ys : List BufferedItem) :
    bytesOf (xs ++ ys) = bytesOf xs + bytesOf ys := by
  simp [bytesOf]

theorem length_le_bytesOf (xs : List BufferedItem) : xs.length ≤ bytesOf xs := by
  induction xs with
  | nil => exact le_refl 0
  | cons x xs ih =>
    rw [bytesOf_cons, length_cons, BufferedItem.itemBytes, sizeofJournalItem]
    omega

/-- `JournalSlice` with its boost ring buffer, oldest item first. -/
structure RingJournal where
  lsn : ℕ
  ringBuffer : List BufferedItem
  capacity : ℕ
  ringBufferBytes : ℕ
  maxAgeMs : ℕ
  maxBytes : ℕ

namespace RingJournal

def init (maxAgeMs maxBytes : ℕ) : RingJournal :=
  ⟨1, [], kDefaultBacklogCapacity, 0, maxAgeMs, maxBytes⟩

/-- The journal that streamers see. -/
def view (j : RingJournal) : JournalSlice := ⟨j.lsn, j.ringBuffer.map BufferedItem.item⟩

def exceedsByteLimit (j : RingJournal) (nextItemBytes retainedBytes : ℕ) : Bool :=
  decide (retainedBytes > j.maxBytes) || decide (nextItemBytes > j.maxBytes - retainedBytes)

def expired (j : RingJournal) (nowMs : ℕ) (x : BufferedItem) : Bool :=
  decide (j.maxAgeMs ≠ 0) && decide (nowMs ≥ x.timeMs) && decide (nowMs - x.timeMs ≥ j.maxAgeMs)

/-- The loop of `CleanEntries` from `first_retained` on; `atBegin` says that it is still the first
item. The erased items are those before the place where the loop stops. `none` is a failed check. -/
def cleanLoop (nextItemBytes nowMs : ℕ) (j : RingJournal) :
    List BufferedItem → (retainedBytes timeEvictions bytesToFree : ℕ) → (atBegin : Bool) →
      Option RingJournal
  | [], retainedBytes, _, _, _ => some { j with ringBuffer := [], ringBufferBytes := retainedBytes }
  | x :: rest, retainedBytes, timeEvictions, bytesToFree, atBegin =>
    let exceeds := j.exceedsByteLimit nextItemBytes retainedBytes
    let evictForTime := j.expired nowMs x && decide (timeEvictions < kMaxTimeEvictionsPerCall)
    let evict := fun (bytesToFree : ℕ) (evictForCapacity : Bool) =>
      if x.itemBytes ≤ retainedBytes then
        cleanLoop nextItemBytes nowMs j rest (retainedBytes - x.itemBytes)
          (if evictForTime && !exceeds && !evictForCapacity then timeEvictions + 1
            else timeEvictions)
          (if evictForCapacity then bytesToFree - x.itemBytes else bytesToFree) false
      else none
    if exceeds || evictForTime || decide (bytesToFree ≠ 0) then
      evict bytesToFree (decide (bytesToFree ≠ 0))
    else if atBegin && decide (j.ringBuffer.length = j.capacity) then
      let avgItemBytes := retainedBytes / j.capacity
      if avgItemBytes = 0 then none
      else
        let growth := (j.maxBytes - retainedBytes) / avgItemBytes
        if growth ≠ 0 then some { j with capacity := j.capacity + growth }
        else evict nextItemBytes true
    else some { j with ringBuffer := x :: rest, ringBufferBytes := retainedBytes }

section

variable (j : RingJournal)

def cleanEntries (nextItemBytes nowMs : ℕ) : Option RingJournal :=
  cleanLoop nextItemBytes nowMs j j.ringBuffer j.ringBufferBytes 0 0 true

/-- `push_back` of the ring buffer, which overwrites the oldest item of a full one. -/
def pushBack (x : BufferedItem) : RingJournal :=
  { j with
    ringBuffer :=
      (if j.ringBuffer.length = j.capacity then j.ringBuffer.drop 1 else j.ringBuffer) ++ [x]
    ringBufferBytes := j.ringBufferBytes + x.itemBytes }

/-- The item of the next record. -/
def nextItem (entry : Entry) (dataCapacity nowMs : ℕ) : BufferedItem :=
  ⟨j.view.itemOf entry, nowMs, dataCapacity⟩

/-- `AddLogRecord` and `CallOnChange`; the size of the serialized entry is given. -/
def addLogRecord (entry : Entry) (dataCapacity nowMs : ℕ) : Option RingJournal :=
  let x := j.nextItem entry dataCapacity nowMs
  if j.ringBuffer.getLast?.all fun back => decide (x.item.lsn = back.item.lsn + 1) then
    ({ j with lsn := j.lsn + 1 }.cleanEntries x.itemBytes nowMs).map (pushBack · x)
  else none

def resetRingBuffer : RingJournal :=
  { j with ringBuffer := [], ringBufferBytes := 0 }

/-- The bookkeeping is right, and there is a buffer. -/
structure Accounted : Prop where
  bytes : j.ringBufferBytes = bytesOf j.ringBuffer
  capacity_pos : 0 < j.capacity
  length_le : j.ringBuffer.length ≤ j.capacity

end

/-! ## §3 Eviction -/

variable {j : RingJournal} {nextItemBytes : ℕ}

theorem le_of_not_exceeds {retainedBytes : ℕ}
    (h : j.exceedsByteLimit nextItemBytes retainedBytes = false) :
    retainedBytes + nextItemBytes ≤ j.maxBytes := by
  simp only [exceedsByteLimit, Bool.or_eq_false_iff, decide_eq_false_iff_not] at h
  omega

/-- Past its first turn the loop drops items until the rest and the next item fit. -/
theorem cleanLoop_spec (j : RingJournal) (nextItemBytes nowMs : ℕ) (rest : List BufferedItem)
    (timeEvictions bytesToFree : ℕ) :
    ∃ k, cleanLoop nextItemBytes nowMs j rest (bytesOf rest) timeEvictions bytesToFree false =
        some { j with ringBuffer := rest.drop k, ringBufferBytes := bytesOf (rest.drop k) } ∧
      (rest.drop k = [] ∨ bytesOf (rest.drop k) + nextItemBytes ≤ j.maxBytes) := by
  induction rest generalizing timeEvictions bytesToFree with
  | nil => exact ⟨0, rfl, .inl rfl⟩
  | cons x rest ih =>
    rw [cleanLoop]
    dsimp only
    split
    · rw [if_pos (by simp), bytesOf_cons, Nat.add_sub_cancel_left]
      obtain ⟨k, hloop, hfits⟩ := ih _ _
      exact ⟨k + 1, hloop, hfits⟩
    · rename_i hstay
      simp only [Bool.or_eq_true, not_or, Bool.not_eq_true] at hstay
      exact ⟨0, rfl, .inr (le_of_not_exceeds hstay.1.1)⟩

/-- What an eviction leaves: the newest items and a free slot, and no items or room for the next
one. -/
structure Cleaned (j : RingJournal) (nextItemBytes : ℕ) (j' : RingJournal) : Prop where
  lsn : j'.lsn = j.lsn
  dropped : ∃ k, j'.ringBuffer = j.ringBuffer.drop k
  bytes : j'.ringBufferBytes = bytesOf j'.ringBuffer
  room : j'.ringBuffer.length < j'.capacity
  fits : j'.ringBuffer = [] ∨ j'.ringBufferBytes + nextItemBytes ≤ j.maxBytes

/-- **An eviction** passes its checks. -/
theorem cleanEntries_spec (h : j.Accounted) (nextItemBytes nowMs : ℕ) :
    ∃ j', j.cleanEntries nextItemBytes nowMs = some j' ∧ Cleaned j nextItemBytes j' := by
  have hpos := h.capacity_pos
  have hle := h.length_le
  have hbytes := h.bytes
  rw [cleanEntries, hbytes]
  rcases hring : j.ringBuffer with _ | ⟨x, rest⟩
  · exact ⟨_, rfl, rfl, ⟨0, hring.symm⟩, rfl, hpos, .inl rfl⟩
  · rw [hring, length_cons] at hle
    -- dropping the first item makes room, whatever it is dropped for
    have hevict (timeEvictions bytesToFree : ℕ) : ∃ j',
        (if x.itemBytes ≤ bytesOf (x :: rest) then cleanLoop nextItemBytes nowMs j rest
          (bytesOf (x :: rest) - x.itemBytes) timeEvictions bytesToFree false else none) = some j' ∧
        Cleaned j nextItemBytes j' := by
      obtain ⟨k, hloop, hfits⟩ :=
        cleanLoop_spec j nextItemBytes nowMs rest timeEvictions bytesToFree
      rw [if_pos (by simp), bytesOf_cons, Nat.add_sub_cancel_left]
      refine ⟨_, hloop, rfl, ⟨k + 1, by rw [hring, drop_succ_cons]⟩, rfl, ?_, hfits⟩
      dsimp only
      rw [length_drop]
      omega
    rw [cleanLoop]
    split
    · exact hevict _ _
    · rename_i hstay
      simp only [Bool.or_eq_true, not_or, Bool.not_eq_true] at hstay
      have hfits := le_of_not_exceeds hstay.1.1
      simp only [Bool.true_and, decide_eq_true_eq, hring, length_cons]
      split
      · -- a full buffer grows, or makes room for as many bytes as are coming in
        rename_i hfull
        have havg : bytesOf (x :: rest) / j.capacity ≠ 0 := by
          have := length_le_bytesOf (x :: rest)
          rw [length_cons, hfull] at this
          exact Nat.ne_of_gt (Nat.div_pos this hpos)
        rw [if_neg havg]
        split
        · rename_i hgrowth
          rw [hring] at hbytes
          refine ⟨_, rfl, rfl, ⟨0, hring.symm⟩, hbytes, ?_, .inr (hbytes.symm ▸ hfits)⟩
          exact lt_of_eq_of_lt hfull (Nat.lt_add_of_pos_right (Nat.pos_of_ne_zero hgrowth))
        · exact hevict _ _
      · refine ⟨_, rfl, rfl, ⟨0, hring.symm⟩, rfl, ?_, .inr hfits⟩
        dsimp only
        rw [length_cons]
        omega

theorem pushBack_of_lt (h : j.ringBuffer.length < j.capacity) (x : BufferedItem) :
    j.pushBack x = { j with
      ringBuffer := j.ringBuffer ++ [x]
      ringBufferBytes := j.ringBufferBytes + x.itemBytes } := by
  rw [pushBack, if_neg h.ne]

/-- `AddLogRecord` evicts oldest items, until the record fits or none is left, and appends to a
buffer with a free slot, so nothing is overwritten. -/
theorem addLogRecord_spec (h : j.Accounted) {start : ℕ} {records : List JournalItem}
    (hkeeps : Keeps j.view start records) (entry : Entry) (dataCapacity nowMs : ℕ) :
    ∃ k j', j.addLogRecord entry dataCapacity nowMs = some j' ∧ j'.Accounted ∧ j'.lsn = j.lsn + 1 ∧
      j'.ringBuffer = j.ringBuffer.drop k ++ [j.nextItem entry dataCapacity nowMs] ∧
      (j.ringBuffer.drop k).length < j'.capacity ∧
      (j.ringBuffer.drop k = [] ∨ j'.ringBufferBytes ≤ j.maxBytes) := by
  have hlast : (j.ringBuffer.getLast?.all fun back =>
      decide ((j.nextItem entry dataCapacity nowMs).item.lsn = back.item.lsn + 1)) = true := by
    rw [Option.all_eq_true]
    intro back hback
    obtain ⟨hlsn, hitem, k, hring⟩ := hkeeps
    have hview : j.view.ringBuffer.getLast? = some back.item := by
      rw [view, getLast?_map, hback, Option.map_some]
    rw [hring, getLast?_drop] at hview
    split at hview
    · cases hview
    · rw [getLast?_eq_getElem?] at hview
      have hback_lsn := hitem _ _ hview
      have hnext : (j.nextItem entry dataCapacity nowMs).item.lsn = j.view.lsn := rfl
      rw [decide_eq_true_eq, hnext]
      omega
  obtain ⟨j', hclean, hlsn, ⟨k, hdropped⟩, hbytes, hroom, hfits⟩ :=
    cleanEntries_spec (j := { j with lsn := j.lsn + 1 }) ⟨h.bytes, h.capacity_pos, h.length_le⟩
      (j.nextItem entry dataCapacity nowMs).itemBytes nowMs
  refine ⟨k, j'.pushBack _, by rw [addLogRecord, if_pos hlast, hclean, Option.map_some], ?_⟩
  rw [pushBack_of_lt hroom]
  refine ⟨⟨?_, Nat.zero_lt_of_lt hroom, ?_⟩, hlsn, congrArg (· ++ [_]) hdropped, ?_, ?_⟩
  · simp [hbytes, bytesOf_append]
  · rw [length_append, length_singleton]
    exact hroom
  · exact hdropped ▸ hroom
  · exact hdropped ▸ hfits

end RingJournal

/-! ## §4 Histories of the buffer -/

/-- The calls that change the buffer: records, `journal::Close`, `journal::ClearBuffer` and
    `journal::StartInThreadAtLsn`. -/
inductive RingOp where
  | addLogRecord (entry : Entry) (dataCapacity nowMs : ℕ)
  | close
  | clearBuffer
  | startInThreadAtLsn (lsn : ℕ)

/-- A journal, the LSN its buffer started at, and the records made since. -/
structure RingRun where
  journal : RingJournal
  start : ℕ
  records : List BufferedItem

namespace RingRun

def init (maxAgeMs maxBytes : ℕ) : RingRun := ⟨RingJournal.init maxAgeMs maxBytes, 1, []⟩

/-- The buffer is emptied and the journal continues at an LSN. -/
def restart (r : RingRun) (lsn : ℕ) : RingRun :=
  ⟨{ r.journal.resetRingBuffer with lsn := lsn }, lsn, []⟩

def step (r : RingRun) : RingOp → Option RingRun
  | .addLogRecord entry dataCapacity nowMs =>
    (r.journal.addLogRecord entry dataCapacity nowMs).map fun j =>
      ⟨j, r.start, r.records ++ [r.journal.nextItem entry dataCapacity nowMs]⟩
  | .close => some (r.restart r.journal.lsn)
  | .clearBuffer => some (r.restart (r.journal.lsn + 1))
  | .startInThreadAtLsn lsn => some (r.restart lsn)

/-- The bookkeeping is right and the buffer holds the last of the records. -/
structure Inv (r : RingRun) : Prop where
  accounted : r.journal.Accounted
  keeps : Keeps r.journal.view r.start (r.records.map BufferedItem.item)
  ring : r.journal.ringBuffer <:+ r.records

variable {r : RingRun}

theorem Inv.restart (h : Inv r) (lsn : ℕ) : Inv (r.restart lsn) :=
  ⟨⟨rfl, h.accounted.capacity_pos, Nat.zero_le _⟩,
    ⟨rfl, fun i item hi => by simp [RingRun.restart] at hi, 0, rfl⟩, suffix_rfl⟩

theorem Inv.step (h : Inv r) (op : RingOp) : ∃ r', r.step op = some r' ∧ Inv r' := by
  cases op with
  | addLogRecord entry dataCapacity nowMs =>
    obtain ⟨k, j', hadd, haccounted, hlsn, hbuffer, -⟩ :=
      RingJournal.addLogRecord_spec h.accounted h.keeps entry dataCapacity nowMs
    refine ⟨_, by rw [RingRun.step, hadd, Option.map_some], haccounted, ?_, ?_⟩
    · have hview :
        j'.view = (r.journal.view.cleanEntries k).push (r.journal.view.itemOf entry) := by
        simp [RingJournal.view, JournalSlice.push, JournalSlice.cleanEntries, hlsn, hbuffer,
          RingJournal.nextItem]
      rw [hview, map_append]
      exact (h.keeps.cleanEntries k).push entry
    · obtain ⟨dropped, hrecords⟩ := (drop_suffix k r.journal.ringBuffer).trans h.ring
      exact ⟨dropped, by rw [hbuffer, ← append_assoc, hrecords]⟩
  | close | clearBuffer => exact ⟨_, rfl, h.restart _⟩
  | startInThreadAtLsn lsn => exact ⟨_, rfl, h.restart lsn⟩

/-- **The ring buffer over any history** of records of any size, clears and resets, under any
limits. No check fails; LSNs are consecutive up to the next one; the byte count is that of the
buffered items; the buffer holds the last of the records, and an LSN in the buffer finds the one
record made with it; and an eviction drops oldest items only, leaves a free slot for the push, and
ends with an empty buffer or with room for the next item. So does that of the next record: what it
finds is an end of the buffer with a free slot, empty or such that the record keeps to the byte
limit. -/
theorem ring_buffer_runs (maxAgeMs maxBytes : ℕ) (ops : List RingOp) :
    ∃ r, Lib.run RingRun.step (RingRun.init maxAgeMs maxBytes) ops = some r ∧
      (∀ i x, r.journal.ringBuffer[i]? = some x →
        x.item.lsn + (r.journal.ringBuffer.length - i) = r.journal.lsn) ∧
      r.journal.ringBufferBytes = bytesOf r.journal.ringBuffer ∧
      r.journal.ringBuffer <:+ r.records ∧
      (∀ lsn, r.journal.view.isLSNInBuffer lsn = true → ∃ x ∈ r.records, x.item.lsn = lsn ∧
        (∀ y ∈ r.records, y.item.lsn = lsn → y = x) ∧
        r.journal.view.getEntryMeta lsn = some x.item ∧
        r.journal.view.getEntry lsn = some x.item.data) ∧
      (∀ nextItemBytes nowMs, ∃ j', r.journal.cleanEntries nextItemBytes nowMs = some j' ∧
        r.journal.Cleaned nextItemBytes j') ∧
      ∀ entry dataCapacity nowMs, ∃ k j',
        r.journal.addLogRecord entry dataCapacity nowMs = some j' ∧
        j'.ringBuffer = r.journal.ringBuffer.drop k ++
          [r.journal.nextItem entry dataCapacity nowMs] ∧
        (r.journal.ringBuffer.drop k).length < j'.capacity ∧
        (r.journal.ringBuffer.drop k = [] ∨ j'.ringBufferBytes ≤ r.journal.maxBytes) := by
  have hinit : Inv (init maxAgeMs maxBytes) :=
    ⟨⟨rfl, Nat.succ_pos _, Nat.zero_le _⟩, ⟨rfl, fun i item hi => by simp [init] at hi, 0, rfl⟩,
      suffix_rfl⟩
  obtain ⟨r, hrun, h⟩ := Lib.run_inv (P := fun _ _ => True) (fun r op hr _ => hr.step op) hinit
    (Lib.runAll_of_forall (fun _ _ => trivial) _ ops)
  refine ⟨r, hrun, fun i x hi => ?_, h.accounted.bytes, h.ring, fun lsn hin => ?_,
    fun nextItemBytes nowMs => ?_, fun entry dataCapacity nowMs => ?_⟩
  · obtain ⟨dropped, hrecords⟩ := h.ring
    have hlt := (List.getElem?_eq_some_iff.mp hi).1
    have hlsn := h.keeps.lsn
    have hitem := h.keeps.item_lsn (dropped.length + i) x.item (by
      rw [← hrecords, map_append, getElem?_append_right (by simp)]
      simp [hi])
    rw [length_map, ← hrecords, length_append] at hlsn
    change r.journal.lsn = _ at hlsn
    omega
  · obtain ⟨hle, -, item, hmeta, hrecord⟩ := h.keeps.getEntryMeta hin
    rw [getElem?_map, Option.map_eq_some_iff] at hrecord
    obtain ⟨x, hx, rfl⟩ := hrecord
    have hlsn (y : BufferedItem) (i : ℕ) (hy : r.records[i]? = some y) : y.item.lsn = r.start + i :=
      h.keeps.item_lsn i y.item (by simp [hy])
    refine ⟨x, mem_of_getElem? hx, ?_, fun y hy hylsn => ?_, hmeta,
      by simp [JournalSlice.getEntry, hmeta]⟩
    · have := hlsn x _ hx
      omega
    · obtain ⟨i, hi⟩ := mem_iff_getElem?.mp hy
      have hyi := hlsn y i hi
      have hindex : i = lsn - r.start := by omega
      rw [hindex, hx] at hi
      exact (Option.some.inj hi).symm
  · exact RingJournal.cleanEntries_spec h.accounted nextItemBytes nowMs
  · obtain ⟨k, j', hadd, -, -, hrest⟩ :=
      RingJournal.addLogRecord_spec h.accounted h.keeps entry dataCapacity nowMs
    exact ⟨k, j', hadd, hrest⟩

end RingRun

end Drakeydb.Journal
