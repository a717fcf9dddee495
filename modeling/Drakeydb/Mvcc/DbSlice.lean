import Mathlib.Data.Finmap
import Mathlib.Tactic.Ring
import Drakeydb.Mvcc.Stamper

/-!
# The Side Table

The mvcc side table of `server/db_slice.cc`: one slot per live key plus the tombstone slots, with
the two counters `stats.mvcc_entries` and `stats.mvcc_tombstones` kept beside it.

Both hash tables are finite maps here. The counters are integers, so that a decrement below
zero, which would wrap in the source, shows as a negative number instead of being hidden.
Namespaces other than the default one never touch the side table and are not modelled; neither
are `mvcc_key_dup_bytes` and the memory accounting.
-/

namespace Drakeydb.Mvcc

open Finset MvccStamp

/-! ## §1 Tables -/

structure DbTableStats where
  mvccEntries : ℤ
  mvccTombstones : ℤ
  mvccTombstonesDropped : ℤ
  deriving DecidableEq

/-- `DbTable`: the prime table and its mvcc side table. -/
structure DbTable (K V : Type*) where
  prime : Finmap fun _ : K => V
  mvcc : Finmap fun _ : K => MvccStamp
  stats : DbTableStats

/-- A shard's slice of one database, with the thread's stamper. -/
structure DbSlice (K V : Type*) where
  table : DbTable K V
  stamper : MvccStamper K

/-- The flags a deletion reads: `TombstonesEnabled()` and `--multi_master_max_tombstones`. -/
structure TombstoneConfig where
  enabled : Bool
  maxTombstones : ℕ
  deriving DecidableEq

inductive DeleteReason where
  | explicit
  | expired
  | evicted
  | slotFlush
  deriving DecidableEq

/-- Is there a slot, and is it a tombstone? -/
def isTombstoneSlot (slot : Option MvccStamp) : Bool :=
  match slot with
  | none => false
  | some s => s.isTombstone

@[simp] theorem isTombstoneSlot_none : isTombstoneSlot none = false := rfl

@[simp] theorem isTombstoneSlot_some (s : MvccStamp) : isTombstoneSlot (some s) = s.isTombstone :=
  rfl

namespace DbTable

variable {K V : Type*} [DecidableEq K]

def empty : DbTable K V := ⟨∅, ∅, ⟨0, 0, 0⟩⟩

section

variable (t : DbTable K V)

def getMvcc (key : K) : Option MvccStamp := t.mvcc.lookup key

/-! ## §2 The slot writers -/

/-- `SetMvcc`: the stamp of a live key, with bit 63 masked off. -/
def setMvcc (key : K) (stamp : MvccStamp) : DbTable K V :=
  let liveStamp := stamp.masked
  let inserted := (t.getMvcc key).isNone
  let wasTombstone := isTombstoneSlot (t.getMvcc key)
  { t with
    mvcc := t.mvcc.insert key liveStamp
    stats := { t.stats with
      mvccEntries := if inserted then t.stats.mvccEntries + 1 else t.stats.mvccEntries
      mvccTombstones :=
        if wasTombstone && !liveStamp.isTombstone then t.stats.mvccTombstones - 1
        else t.stats.mvccTombstones } }

/-- `EnsureMvcc`: make a live slot exist and return the stamp the key had before. -/
def ensureMvcc (key : K) : DbTable K V × MvccStamp :=
  match t.getMvcc key with
  | none =>
    ({ t with
        mvcc := t.mvcc.insert key MvccStamp.zero
        stats := { t.stats with mvccEntries := t.stats.mvccEntries + 1 } }, MvccStamp.zero)
  | some s =>
    if s.isTombstone then
      ({ t with
          mvcc := t.mvcc.insert key MvccStamp.zero
          stats := { t.stats with mvccTombstones := t.stats.mvccTombstones - 1 } }, s)
    else (t, s)

/-- `SetExistingMvcc`: overwrite a slot that must exist; `none` is the failed `CHECK`. -/
def setExistingMvcc (key : K) (stamp : MvccStamp) : Option (DbTable K V) :=
  match t.getMvcc key with
  | none => none
  | some s =>
    let wasTombstone := s.isTombstone
    some { t with
      mvcc := t.mvcc.insert key stamp
      stats := { t.stats with
        mvccTombstones :=
          if wasTombstone && !stamp.isTombstone then t.stats.mvccTombstones - 1
          else if !wasTombstone && stamp.isTombstone then t.stats.mvccTombstones + 1
          else t.stats.mvccTombstones } }

/-- `SetTombstone`: install or overwrite a tombstone slot. -/
def setTombstone (key : K) (stamp : MvccStamp) : DbTable K V :=
  let inserted := (t.getMvcc key).isNone
  let wasTombstone := isTombstoneSlot (t.getMvcc key)
  { t with
    mvcc := t.mvcc.insert key stamp
    stats := { t.stats with
      mvccEntries := if inserted then t.stats.mvccEntries + 1 else t.stats.mvccEntries
      mvccTombstones :=
        if !wasTombstone then t.stats.mvccTombstones + 1 else t.stats.mvccTombstones } }

def eraseMvcc (key : K) : DbTable K V :=
  match t.getMvcc key with
  | none => t
  | some s =>
    { t with
      mvcc := t.mvcc.erase key
      stats := { t.stats with
        mvccEntries := t.stats.mvccEntries - 1
        mvccTombstones :=
          if s.isTombstone then t.stats.mvccTombstones - 1 else t.stats.mvccTombstones } }

/-- A degraded tombstone is counted. -/
def countDropped : DbTable K V :=
  { t with stats := { t.stats with
      mvccTombstonesDropped := t.stats.mvccTombstonesDropped + 1 } }

end

/-- `InstallAbsentKeyTombstone`: overwriting a tombstone is always allowed, a new one only below
    the cap. -/
def installAbsentKeyTombstone (cfg : TombstoneConfig) (t : DbTable K V) (key : K)
    (stamp : MvccStamp) : DbTable K V :=
  if cfg.enabled then
    let wouldGrow := !isTombstoneSlot (t.getMvcc key)
    if !wouldGrow || decide (t.stats.mvccTombstones < cfg.maxTombstones) then
      t.setTombstone key stamp
    else t.countDropped
  else t

def rollbackUncommittedTombstone (t : DbTable K V) (key : K) : DbTable K V :=
  if isTombstoneSlot (t.getMvcc key) then t.eraseMvcc key else t

/-- May the collector drop this slot?  A placeholder (`Mvcc() == 0`) never, a committed
    tombstone once its deadline has passed and no live key is left. -/
def reapable (t : DbTable K V) (ttlMs nowMs : UInt64) (key : K) : Bool :=
  match t.getMvcc key with
  | none => false
  | some s =>
    s.isTombstone && decide (s.mvcc ≠ 0) && decide (s.deadlineMs ttlMs ≤ nowMs) &&
      (t.prime.lookup key).isNone

/-- `TombstoneGcStep` over the keys its traversal visits. -/
def tombstoneGcStep (t : DbTable K V) (ttlMs nowMs : UInt64) (visited : List K) : DbTable K V :=
  visited.foldl (fun t key => if t.reapable ttlMs nowMs key then t.eraseMvcc key else t) t

/-! ## §3 What a slot write is -/

/-- 1 for a slot that exists. -/
def entryCount (slot : Option MvccStamp) : ℤ := if slot.isSome then 1 else 0

/-- 1 for a tombstone slot. -/
def tombstoneCount (slot : Option MvccStamp) : ℤ := if isTombstoneSlot slot then 1 else 0

/-- **Slot write**: `t'` is `t` with the slot of `key` set to `new` and the counters moved by
    exactly what that changes. -/
structure SlotWrite (t t' : DbTable K V) (key : K) (new : Option MvccStamp) : Prop where
  lookup_self : t'.getMvcc key = new
  lookup_other : ∀ j, j ≠ key → t'.getMvcc j = t.getMvcc j
  prime : t'.prime = t.prime
  entries : t'.stats.mvccEntries =
    t.stats.mvccEntries + (entryCount new - entryCount (t.getMvcc key))
  tombstones : t'.stats.mvccTombstones =
    t.stats.mvccTombstones + (tombstoneCount new - tombstoneCount (t.getMvcc key))

variable (t : DbTable K V) (key : K)

theorem SlotWrite.refl : SlotWrite t t key (t.getMvcc key) :=
  ⟨rfl, fun _ _ => rfl, rfl, by ring, by ring⟩

variable {new : Option MvccStamp}

theorem SlotWrite.getMvcc {t t' : DbTable K V} {key : K} (h : SlotWrite t t' key new) (j : K) :
    t'.getMvcc j = if j = key then new else t.getMvcc j := by
  split
  · rename_i hj
    rw [hj, h.lookup_self]
  · exact h.lookup_other j ‹_›

private theorem insert_lookups (s : MvccStamp) :
    (t.mvcc.insert key s).lookup key = some s ∧
      ∀ j, j ≠ key → (t.mvcc.insert key s).lookup j = t.mvcc.lookup j :=
  ⟨Finmap.lookup_insert _, fun _ hj => Finmap.lookup_insert_of_ne _ hj⟩

variable (stamp : MvccStamp)

theorem setMvcc_slotWrite : SlotWrite t (t.setMvcc key stamp) key (some stamp.masked) := by
  obtain ⟨hself, hother⟩ := insert_lookups t key stamp.masked
  refine ⟨hself, hother, rfl, ?_, ?_⟩
  · cases h : t.getMvcc key <;> simp [setMvcc, entryCount, h]
  · cases h : isTombstoneSlot (t.getMvcc key) <;> simp [setMvcc, tombstoneCount, h]
    ring

theorem setTombstone_slotWrite {stamp : MvccStamp} (hst : stamp.isTombstone = true) :
    SlotWrite t (t.setTombstone key stamp) key (some stamp) := by
  obtain ⟨hself, hother⟩ := insert_lookups t key stamp
  refine ⟨hself, hother, rfl, ?_, ?_⟩
  · cases h : t.getMvcc key <;> simp [setTombstone, entryCount, h]
  · cases h : isTombstoneSlot (t.getMvcc key) <;> simp [setTombstone, tombstoneCount, hst, h]

/-- `EnsureMvcc` leaves a live slot and hands back what was there. -/
theorem ensureMvcc_slotWrite :
    ∃ new : MvccStamp, new.isTombstone = false ∧
      SlotWrite t (t.ensureMvcc key).1 key (some new) ∧
      (t.ensureMvcc key).2 = (t.getMvcc key).getD MvccStamp.zero := by
  have hzero : zero.isTombstone = false := by decide
  obtain ⟨hself, hother⟩ := insert_lookups t key zero
  cases h : t.getMvcc key with
  | none =>
    refine ⟨zero, hzero, ?_, by simp [ensureMvcc, h]⟩
    simp only [ensureMvcc, h]
    exact ⟨hself, hother, rfl, by simp [entryCount, h], by simp [tombstoneCount, h, hzero]⟩
  | some s =>
    cases hs : s.isTombstone with
    | true =>
      refine ⟨zero, hzero, ?_, by simp [ensureMvcc, h, hs]⟩
      simp only [ensureMvcc, h, hs, if_true]
      exact ⟨hself, hother, rfl, by simp [entryCount, h], by
        simp [tombstoneCount, h, hs, hzero]; ring⟩
    | false =>
      refine ⟨s, hs, ?_, by simp [ensureMvcc, h, hs]⟩
      simp only [ensureMvcc, h, hs, Bool.false_eq_true, if_false]
      exact h ▸ SlotWrite.refl t key

theorem eraseMvcc_slotWrite : SlotWrite t (t.eraseMvcc key) key none := by
  cases h : t.getMvcc key with
  | none =>
    simp only [eraseMvcc, h]
    exact h ▸ SlotWrite.refl t key
  | some s =>
    simp only [eraseMvcc, h]
    refine ⟨Finmap.lookup_erase _ _, fun j hj => Finmap.lookup_erase_ne hj, rfl, ?_, ?_⟩
    · simp [entryCount, h]
      ring
    · cases hs : s.isTombstone <;> simp [tombstoneCount, h, hs]
      ring

theorem slotWrite_of_setExistingMvcc {t t' : DbTable K V} {key : K} {stamp : MvccStamp}
    (h : t.setExistingMvcc key stamp = some t') : SlotWrite t t' key (some stamp) := by
  obtain ⟨hself, hother⟩ := insert_lookups t key stamp
  unfold setExistingMvcc at h
  split at h
  case h_1 => cases h
  case h_2 s hs =>
    cases h
    refine ⟨hself, hother, rfl, by simp [entryCount, hs], ?_⟩
    cases h1 : s.isTombstone <;> cases h2 : stamp.isTombstone <;>
      simp [tombstoneCount, hs, h1, h2]
    ring

/-- `SetExistingMvcc` passes its `CHECK` exactly on an existing slot. -/
theorem setExistingMvcc_slotWrite (h : (t.getMvcc key).isSome = true) :
    ∃ t', t.setExistingMvcc key stamp = some t' ∧ SlotWrite t t' key (some stamp) := by
  obtain ⟨s, hs⟩ := Option.isSome_iff_exists.mp h
  obtain ⟨t', hset⟩ : ∃ t', t.setExistingMvcc key stamp = some t' := by simp [setExistingMvcc, hs]
  exact ⟨t', hset, slotWrite_of_setExistingMvcc hset⟩

/-! ## §4 The counters -/

/-- The keys whose slot is a tombstone. -/
def tombstoneKeys (t : DbTable K V) : Finset K :=
  t.mvcc.keys.filter fun key => isTombstoneSlot (t.getMvcc key) = true

/-- The counters say what the table holds. -/
structure Counted (t : DbTable K V) : Prop where
  entries : t.stats.mvccEntries = t.mvcc.keys.card
  tombstones : t.stats.mvccTombstones = t.tombstoneKeys.card

theorem mem_keys_iff : key ∈ t.mvcc.keys ↔ (t.getMvcc key).isSome = true := by
  rw [Finmap.mem_keys, Finmap.mem_iff, getMvcc, Option.isSome_iff_exists]

theorem mem_tombstoneKeys_iff : key ∈ t.tombstoneKeys ↔ isTombstoneSlot (t.getMvcc key) = true := by
  simp only [tombstoneKeys, mem_filter, mem_keys_iff, and_iff_right_iff_imp]
  cases t.getMvcc key <;> simp

omit V in
/-- Two finite sets that differ in at most one point differ in size by that point. -/
private theorem card_update (s s' : Finset K) (key : K) (h : ∀ j, j ≠ key → (j ∈ s' ↔ j ∈ s)) :
    (s'.card : ℤ) = s.card + ((if key ∈ s' then 1 else 0) - (if key ∈ s then 1 else 0)) := by
  have herase : s'.erase key = s.erase key := by
    ext j
    simp only [mem_erase]
    exact and_congr_right fun hj => h j hj
  have hcard := congrArg card herase
  have hpos : ∀ u : Finset K, key ∈ u → 0 < u.card := fun u hu => card_pos.mpr ⟨key, hu⟩
  rw [card_erase_eq_ite, card_erase_eq_ite] at hcard
  by_cases h1 : key ∈ s' <;> by_cases h2 : key ∈ s <;>
    simp only [h1, h2, if_true, if_false] at hcard ⊢
  · have := hpos s' h1
    have := hpos s h2
    omega
  · have := hpos s' h1
    omega
  · have := hpos s h2
    omega
  · omega

/-- A slot write keeps the counters exact. -/
theorem SlotWrite.counted {t t' : DbTable K V} {key : K} (h : SlotWrite t t' key new)
    (hc : Counted t) :
    Counted t' := by
  constructor
  · rw [h.entries, hc.entries, card_update t.mvcc.keys t'.mvcc.keys key]
    · simp [mem_keys_iff, h.lookup_self, entryCount]
    · intro j hj
      rw [mem_keys_iff, mem_keys_iff, h.lookup_other j hj]
  · rw [h.tombstones, hc.tombstones, card_update t.tombstoneKeys t'.tombstoneKeys key]
    · simp [mem_tombstoneKeys_iff, h.lookup_self, tombstoneCount]
    · intro j hj
      rw [mem_tombstoneKeys_iff, mem_tombstoneKeys_iff, h.lookup_other j hj]

end DbTable

end Drakeydb.Mvcc
