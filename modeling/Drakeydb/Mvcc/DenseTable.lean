import Drakeydb.Lib.Run
import Drakeydb.Mvcc.Shard

/-!
# The Dense Side Table

The side table is *dense*: outside the window between a key's insertion and its `PostUpdate`,
its live slots are exactly the keys of the prime table, its tombstone slots belong to absent
keys, and the two counters are exact. Deletes and writes only arm a key and are settled later,
by a commit, by an expiry or by the end of the epoch, so the invariant also says what every
pending arm implies about its slot.

Two orders of events break it. A key that is loaded while a delete of it is still pending is
live when that delete's tombstone is committed over its slot; and a tombstone installed over a
pending delete's placeholder can be collected before the commit that needs its slot. `Sound`
excludes exactly these (and a clock past its 43 bits).
-/

namespace Drakeydb.Mvcc

open List Option Finset MvccStamper Bool DbTable

/-! ## §1 Operations of one database -/

/-- The operations that touch the side table of a database. -/
inductive DenseOp (K V : Type*) where
  /-- a new key enters the prime table; its `PostUpdate` is still to come -/
  | insert (key : K) (value : V)
  | postUpdate (key : K)
  | delete (cfg : TombstoneConfig) (key : K) (reason : DeleteReason)
  | recordEntry (originIdx : ℕ) (mvcc : UInt64) (expiredFlag : Bool) (nowMs : UInt64)
  | commitOwnTombstone (key : K)
  /-- a loaded key: value and stamp at once, without arming -/
  | load (key : K) (value : V) (stamp : MvccStamp)
  | installAbsentKeyTombstone (cfg : TombstoneConfig) (key : K) (stamp : MvccStamp)
  | endOfWriteEpoch
  | tombstoneGcStep (ttlMs nowMs : UInt64) (visited : List K)

/-- A slice together with the keys that are between insertion and `PostUpdate`. -/
structure DenseState (K V : Type*) where
  slice : DbSlice K V
  inserting : Finset K

variable {K V : Type*} [DecidableEq K]

namespace DenseState

/-- An empty database on a thread whose stamper has nothing armed. -/
def init (originHash : ℕ → UInt64) : DenseState K V :=
  ⟨⟨DbTable.empty, MvccStamper.init originHash⟩, ∅⟩

/-- Run one operation; `none` is a failed `CHECK`. -/
def exec (s : DenseState K V) : DenseOp K V → Option (DenseState K V)
  | .insert key value =>
    some ⟨⟨s.slice.table.setPrime key value, s.slice.stamper⟩, insert key s.inserting⟩
  | .postUpdate key => some ⟨s.slice.postUpdate key, s.inserting.erase key⟩
  | .delete cfg key reason => some ⟨s.slice.performDeletionAtomic cfg key reason, s.inserting⟩
  | .recordEntry originIdx mvcc expiredFlag nowMs =>
    (s.slice.recordEntry originIdx mvcc expiredFlag nowMs).map fun r => ⟨r.2, s.inserting⟩
  | .commitOwnTombstone key =>
    (s.slice.commitOwnTombstone key).map fun r => ⟨r.2, s.inserting⟩
  | .load key value stamp =>
    some ⟨⟨(s.slice.table.setPrime key value).setMvcc key stamp, s.slice.stamper⟩, s.inserting⟩
  | .installAbsentKeyTombstone cfg key stamp =>
    some ⟨⟨s.slice.table.installAbsentKeyTombstone cfg key stamp, s.slice.stamper⟩, s.inserting⟩
  | .endOfWriteEpoch => some ⟨s.slice.endOfWriteEpoch, s.inserting⟩
  | .tombstoneGcStep ttlMs nowMs visited =>
    some ⟨⟨s.slice.table.tombstoneGcStep ttlMs nowMs visited, s.slice.stamper⟩, s.inserting⟩

/-- Is the key in the prime table, and not in the middle of its insertion? -/
def settled (s : DenseState K V) (key : K) : Bool :=
  (s.slice.table.prime.lookup key).isSome && decide (key ∉ s.inserting)

/-- The callers' side of each operation: what is inserted is absent, what is updated or deleted
    is live, what is installed is a tombstone on an absent key. -/
def Legal (s : DenseState K V) : DenseOp K V → Prop
  | .insert key _ => s.slice.table.prime.lookup key = none
  | .postUpdate key => (s.slice.table.prime.lookup key).isSome = true
  | .delete _ key _ => s.settled key = true
  | .load key _ _ => key ∉ s.inserting
  | .installAbsentKeyTombstone _ key stamp =>
    s.slice.table.prime.lookup key = none ∧ stamp.isTombstone = true
  | .recordEntry .. | .commitOwnTombstone _ | .endOfWriteEpoch | .tombstoneGcStep .. => True

/-- The condition under which the operation keeps the table dense. A commit must not turn a
    live key's slot into a tombstone, nor mint a stamp that reaches bit 63; the collector must
    not take a slot that a pending arm still needs. -/
def Sound (s : DenseState K V) : DenseOp K V → Prop
  | .recordEntry _ mvcc expiredFlag nowMs =>
    expiredFlag = true ∨
      ((mvcc = 0 → s.slice.stamper.ClockInRange nowMs) ∧
        ∀ a ∈ s.slice.stamper.armed, a.tombstone = true → s.settled a.key = true →
          ∃ b ∈ s.slice.stamper.armed, b.key = a.key ∧ b.tombstone = false)
  | .commitOwnTombstone key =>
    (s.slice.stamper.tombstoneArm? key).isSome = true → s.settled key = false
  | .tombstoneGcStep ttlMs nowMs visited =>
    ∀ key ∈ visited, s.slice.table.reapable ttlMs nowMs key = true →
      ∀ a ∈ s.slice.stamper.armed, a.key ≠ key
  | .insert .. | .postUpdate _ | .delete .. | .load .. | .installAbsentKeyTombstone ..
  | .endOfWriteEpoch => True

instance (s : DenseState K V) : (op : DenseOp K V) → Decidable (s.Legal op)
  | .insert key _ => inferInstanceAs (Decidable (s.slice.table.prime.lookup key = none))
  | .postUpdate _ => inferInstanceAs (Decidable (_ = true))
  | .delete .. => inferInstanceAs (Decidable (_ = true))
  | .load key _ _ => inferInstanceAs (Decidable (key ∉ s.inserting))
  | .installAbsentKeyTombstone _ key _ =>
    inferInstanceAs (Decidable (s.slice.table.prime.lookup key = none ∧ _ = true))
  | .recordEntry .. => isTrue trivial
  | .commitOwnTombstone _ => isTrue trivial
  | .endOfWriteEpoch => isTrue trivial
  | .tombstoneGcStep .. => isTrue trivial

instance (s : DenseState K V) : (op : DenseOp K V) → Decidable (s.Sound op)
  | .recordEntry _ mvcc expiredFlag nowMs =>
    inferInstanceAs
      (Decidable (expiredFlag = true ∨ ((mvcc = 0 → s.slice.stamper.ClockInRange nowMs) ∧
        ∀ a ∈ s.slice.stamper.armed, a.tombstone = true → s.settled a.key = true →
          ∃ b ∈ s.slice.stamper.armed, b.key = a.key ∧ b.tombstone = false)))
  | .commitOwnTombstone _ => inferInstanceAs (Decidable (_ = true → _ = false))
  | .tombstoneGcStep ttlMs nowMs visited =>
    inferInstanceAs (Decidable (∀ key ∈ visited, s.slice.table.reapable ttlMs nowMs key = true →
      ∀ a ∈ s.slice.stamper.armed, a.key ≠ key))
  | .insert .. => isTrue trivial
  | .postUpdate _ => isTrue trivial
  | .delete .. => isTrue trivial
  | .load .. => isTrue trivial
  | .installAbsentKeyTombstone .. => isTrue trivial
  | .endOfWriteEpoch => isTrue trivial

end DenseState

/-! ## §2 The invariant -/

/-- A slot that is there and no tombstone. -/
def isLiveSlot (slot : Option MvccStamp) : Bool :=
  match slot with
  | none => false
  | some s => !s.isTombstone

@[simp] theorem isLiveSlot_none : isLiveSlot none = false := rfl

@[simp] theorem isLiveSlot_some (s : MvccStamp) : isLiveSlot (some s) = !s.isTombstone := rfl

/-- **Dense**: live slots are the prime keys, tombstones belong to absent keys, counters are
    exact. -/
structure DbTable.Dense (t : DbTable K V) : Prop where
  live_eq : t.mvcc.keys.filter (fun key => isLiveSlot (t.getMvcc key) = true) = t.prime.keys
  disjoint : Disjoint t.tombstoneKeys t.prime.keys
  counted : t.Counted

/-- The table's part of the invariant, with the insertions in progress. -/
structure DbTable.DenseBut (t : DbTable K V) (inserting : Finset K) : Prop where
  counted : t.Counted
  dense : ∀ key, isLiveSlot (t.getMvcc key) = true ↔
    (t.prime.lookup key).isSome = true ∧ key ∉ inserting
  present : ∀ key ∈ inserting, (t.prime.lookup key).isSome = true

/-- What a pending arm implies: its slot exists, a plain arm's slot is live, and a tombstone arm
    is the first arm of its key. -/
structure ArmsOk (t : DbTable K V) (armed : List (Armed K)) : Prop where
  slot : ∀ a ∈ armed, (t.getMvcc a.key).isSome = true
  live : ∀ a ∈ armed, a.tombstone = false → isLiveSlot (t.getMvcc a.key) = true
  first : TombstoneFirst armed

/-- The invariant of a run. -/
structure DenseState.Inv (s : DenseState K V) : Prop where
  table : s.slice.table.DenseBut s.inserting
  arms : ArmsOk s.slice.table s.slice.stamper.armed

variable {t : DbTable K V}

theorem DbTable.DenseBut.toDense (h : t.DenseBut ∅) : t.Dense := by
  have hlive : ∀ key, isLiveSlot (t.getMvcc key) = true ↔ key ∈ t.prime.keys := by
    intro key
    rw [h.dense, Finmap.mem_keys, Finmap.mem_iff, isSome_iff_exists]
    simp
  refine ⟨?_, ?_, h.counted⟩
  · ext key
    rw [Finset.mem_filter, hlive, t.mem_keys_iff, and_iff_right_iff_imp, ← hlive]
    cases t.getMvcc key <;> simp
  · rw [Finset.disjoint_left]
    intro key htomb hprime
    rw [t.mem_tombstoneKeys_iff] at htomb
    rw [← hlive] at hprime
    cases hslot : t.getMvcc key <;> simp_all

theorem ArmsOk.nil (t : DbTable K V) : ArmsOk t [] :=
  ⟨forall_mem_nil _, forall_mem_nil _, List.Pairwise.nil⟩

variable {as : List (Armed K)}

theorem ArmsOk.sublist {bs : List (Armed K)} (h : ArmsOk t as) (hsub : bs.Sublist as) :
    ArmsOk t bs :=
  ⟨fun a ha => h.slot a (hsub.subset ha), fun a ha => h.live a (hsub.subset ha),
    h.first.sublist hsub⟩

theorem ArmsOk.concat {a : Armed K} (h : ArmsOk t as) (hslot : (t.getMvcc a.key).isSome = true)
    (hlive : a.tombstone = false → isLiveSlot (t.getMvcc a.key) = true)
    (hfirst : ∀ b ∈ as, b.key = a.key → a.tombstone = false) : ArmsOk t (as ++ [a]) where
  slot := forall_mem_append.mpr ⟨h.slot, forall_mem_singleton.mpr hslot⟩
  live := forall_mem_append.mpr ⟨h.live, forall_mem_singleton.mpr hlive⟩
  first := pairwise_append.mpr ⟨h.first, pairwise_singleton _ _,
    fun b hb => forall_mem_singleton.mpr (hfirst b hb)⟩

variable {t' : DbTable K V}

theorem ArmsOk.congr (h : ArmsOk t as) (hget : ∀ a ∈ as, t'.getMvcc a.key = t.getMvcc a.key) :
    ArmsOk t' as :=
  ⟨fun a ha => by rw [hget a ha]; exact h.slot a ha,
    fun a ha hp => by rw [hget a ha]; exact h.live a ha hp, h.first⟩

/-! ## §3 One operation -/

/-- An operation that touches one key only has to be checked at that key. -/
theorem DbTable.DenseBut.update {ins ins' : Finset K} (h : t.DenseBut ins) (key : K)
    (hcount : t'.Counted) (hslot : ∀ j, j ≠ key → t'.getMvcc j = t.getMvcc j)
    (hprime : ∀ j, j ≠ key → t'.prime.lookup j = t.prime.lookup j)
    (hins : ∀ j, j ≠ key → (j ∈ ins' ↔ j ∈ ins))
    (hkey : isLiveSlot (t'.getMvcc key) = true ↔ (t'.prime.lookup key).isSome = true ∧ key ∉ ins')
    (hpres : key ∈ ins' → (t'.prime.lookup key).isSome = true) : t'.DenseBut ins' := by
  refine ⟨hcount, ?_, ?_⟩
  · intro j
    by_cases hj : j = key
    · rw [hj]
      exact hkey
    · rw [hslot j hj, hprime j hj, hins j hj]
      exact h.dense j
  · intro j hmem
    by_cases hj : j = key
    · rw [hj] at hmem ⊢
      exact hpres hmem
    · rw [hprime j hj]
      exact h.present j ((hins j hj).mp hmem)

/-- A write to a slot that does not change whether it is live. -/
theorem DbTable.DenseBut.slotWrite {ins : Finset K} {key : K} {new : Option MvccStamp}
    (h : t.DenseBut ins)
    (hw : SlotWrite t t' key new) (hlive : isLiveSlot new = isLiveSlot (t.getMvcc key)) :
      t'.DenseBut ins := by
  refine h.update key (hw.counted h.counted) hw.lookup_other (fun j _ => by rw [hw.prime])
    (fun _ _ => Iff.rfl) ?_ fun hk => ?_
  · rw [hw.lookup_self, hw.prime, hlive]
    exact h.dense key
  · rw [hw.prime]
    exact h.present key hk

theorem ArmsOk.slotWrite {key : K} {new : Option MvccStamp} (h : ArmsOk t as)
    (hw : SlotWrite t t' key new) (hsome : ∀ a ∈ as, a.key = key → new.isSome = true)
    (hlive : ∀ a ∈ as, a.key = key → a.tombstone = false → isLiveSlot new = true) :
      ArmsOk t' as := by
  refine ⟨?_, ?_, h.first⟩
  · intro a ha
    rw [hw.getMvcc]
    split
    · exact hsome a ha ‹_›
    · exact h.slot a ha
  · intro a ha hp
    rw [hw.getMvcc]
    split
    · exact hlive a ha ‹_› hp
    · exact h.live a ha hp

namespace DenseState

variable {s : DenseState K V}

theorem settled_iff (s : DenseState K V) (key : K) :
    s.settled key = true ↔ (s.slice.table.prime.lookup key).isSome = true ∧ key ∉ s.inserting := by
  simp [settled]

theorem Inv.settled_iff_live (h : s.Inv) (key : K) :
    s.settled key = true ↔ isLiveSlot (s.slice.table.getMvcc key) = true := by
  rw [settled_iff, h.table.dense]

variable {key : K}

section

variable (h : s.Inv)
include h

theorem insert_inv (hlegal : s.slice.table.prime.lookup key = none) (value : V) :
    Inv (⟨⟨s.slice.table.setPrime key value, s.slice.stamper⟩, insert key s.inserting⟩ :
      DenseState K V) := by
  have hdead : ¬ isLiveSlot (s.slice.table.getMvcc key) = true := by
    rw [h.table.dense, hlegal]
    simp
  refine ⟨h.table.update key (h.table.counted.setPrime key value) (fun _ _ => rfl)
    (fun j hj => Finmap.lookup_insert_of_ne _ hj) (fun j hj => by simp [hj]) ?_ ?_, ?_⟩
  · simpa using hdead
  · simp [setPrime, Finmap.lookup_insert]
  · exact h.arms.congr fun _ _ => rfl

theorem postUpdate_inv (hlegal : (s.slice.table.prime.lookup key).isSome = true) :
    Inv (⟨s.slice.postUpdate key, s.inserting.erase key⟩ : DenseState K V) := by
  obtain ⟨new, hnew, hw, -⟩ := s.slice.table.ensureMvcc_slotWrite key
  have hlive : isLiveSlot (some new) = true := by simp [hnew]
  have harms : ArmsOk (s.slice.table.ensureMvcc key).1 s.slice.stamper.armed :=
    h.arms.slotWrite hw (fun _ _ _ => rfl) (fun _ _ _ _ => hlive)
  refine ⟨h.table.update key (hw.counted h.table.counted) hw.lookup_other
    (fun j _ => by rw [← hw.prime]; rfl) (fun j hj => by simp [hj]) ?_ ?_, ?_⟩
  · change isLiveSlot ((s.slice.table.ensureMvcc key).1.getMvcc key) = true ↔
      ((s.slice.table.ensureMvcc key).1.prime.lookup key).isSome = true ∧ _
    rw [hw.lookup_self, hw.prime]
    simp [hlive, hlegal]
  · intro hmem
    exact absurd rfl (ne_of_mem_erase hmem)
  · exact harms.concat (hw.lookup_self ▸ rfl) (fun _ => hw.lookup_self ▸ hlive) fun _ _ _ => rfl

theorem Inv.isLiveSlot_of_dead (hdead : s.settled key = false) :
    isLiveSlot (s.slice.table.getMvcc key) = false :=
  eq_false_iff.mpr (mt (h.settled_iff_live key).mpr (ne_true_of_eq_false hdead))

theorem Inv.tombstone_of_dead (hdead : s.settled key = false) {a : Armed K}
    (ha : a ∈ s.slice.stamper.armed) (hkey : a.key = key) : a.tombstone = true := by
  by_contra hp
  have hlive := h.arms.live a ha (eq_false_iff.mpr hp)
  rw [hkey, h.isLiveSlot_of_dead hdead] at hlive
  exact false_ne_true hlive

theorem delete_inv (cfg : TombstoneConfig) (reason : DeleteReason) (hlegal : s.settled key = true) :
    Inv (⟨s.slice.performDeletionAtomic cfg key reason, s.inserting⟩ : DenseState K V) := by
  have hins : key ∉ s.inserting := ((settled_iff s key).mp hlegal).2
  have hdisarm : (s.slice.stamper.disarm key).armed.Sublist s.slice.stamper.armed := filter_sublist
  have hother : ∀ a ∈ (s.slice.stamper.disarm key).armed, a.key ≠ key := fun a ha => by
    simpa using (mem_filter.mp ha).2
  -- whatever becomes of the slot, the key has left the prime table and its old arms are gone
  have hfinish : ∀ {t : DbTable K V} {new : Option MvccStamp},
      SlotWrite s.slice.table t key new → isLiveSlot new = false →
      (t.erasePrime key).DenseBut s.inserting ∧
        ArmsOk (t.erasePrime key) (s.slice.stamper.disarm key).armed := by
    intro t new hw hdead
    have hgone : (t.erasePrime key).prime.lookup key = none := Finmap.lookup_erase _ _
    refine ⟨h.table.update key ((hw.counted h.table.counted).erasePrime key)
      hw.lookup_other (fun j hj => ?_) (fun _ _ => Iff.rfl) ?_ (fun hk => absurd hk hins), ?_⟩
    · rw [← hw.prime]
      exact Finmap.lookup_erase_ne hj
    · rw [hgone, getMvcc_erasePrime, hw.lookup_self, hdead]
      simp
    · refine (h.arms.sublist hdisarm).congr fun a ha => ?_
      exact hw.lookup_other a.key (hother a ha)
  cases hcase : earnsTombstone cfg reason &&
      decide (s.slice.table.stats.mvccTombstones < cfg.maxTombstones) with
  | true =>
    have hw := s.slice.table.setTombstone_slotWrite key placeholder_isTombstone
    obtain ⟨htable, harms⟩ := hfinish hw (by simp)
    simp only [DbSlice.performDeletionAtomic, hcase, if_true]
    exact ⟨htable, harms.concat (hw.lookup_self ▸ rfl) (fun hplain => by simp at hplain)
      fun a ha hab => absurd hab (hother a ha)⟩
  | false =>
    simp only [DbSlice.performDeletionAtomic, hcase, false_eq_true, if_false]
    cases earnsTombstone cfg reason with
    | true =>
      have hw := s.slice.table.countDropped.eraseMvcc_slotWrite key
      obtain ⟨htable, harms⟩ := hfinish
        (⟨hw.lookup_self, hw.lookup_other, hw.prime, hw.entries, hw.tombstones⟩ :
          SlotWrite s.slice.table _ key none) rfl
      exact ⟨htable, harms⟩
    | false =>
      obtain ⟨htable, harms⟩ := hfinish (s.slice.table.eraseMvcc_slotWrite key) rfl
      exact ⟨htable, harms⟩

theorem load_inv (value : V) (stamp : MvccStamp) (hlegal : key ∉ s.inserting) :
    Inv (⟨⟨(s.slice.table.setPrime key value).setMvcc key stamp, s.slice.stamper⟩,
      s.inserting⟩ : DenseState K V) := by
  have hw := (s.slice.table.setPrime key value).setMvcc_slotWrite key stamp
  have hprime : ∀ j, ((s.slice.table.setPrime key value).setMvcc key stamp).prime.lookup j =
      (s.slice.table.prime.insert key value).lookup j := fun j => by rw [hw.prime]; rfl
  refine ⟨h.table.update key (hw.counted (h.table.counted.setPrime key value))
    hw.lookup_other (fun j hj => ?_) (fun _ _ => Iff.rfl) ?_ (fun hk => absurd hk hlegal), ?_⟩
  · rw [hprime, Finmap.lookup_insert_of_ne _ hj]
  · rw [hw.lookup_self, hprime, Finmap.lookup_insert]
    simp [hlegal]
  · have harms : ArmsOk (s.slice.table.setPrime key value) s.slice.stamper.armed :=
      h.arms.congr fun _ _ => rfl
    exact harms.slotWrite hw (fun _ _ _ => rfl) (fun _ _ _ _ => by simp)

theorem installAbsentKeyTombstone_inv (cfg : TombstoneConfig) {stamp : MvccStamp}
    (hlegal : s.slice.table.prime.lookup key = none) (hst : stamp.isTombstone = true) :
    Inv (⟨⟨s.slice.table.installAbsentKeyTombstone cfg key stamp, s.slice.stamper⟩,
      s.inserting⟩ : DenseState K V) := by
  have hdead : s.settled key = false := by simp [settled, hlegal]
  unfold installAbsentKeyTombstone
  split
  · simp only
    split
    · have hw := s.slice.table.setTombstone_slotWrite key hst
      refine ⟨h.table.slotWrite hw ?_,
        h.arms.slotWrite hw (fun _ _ _ => rfl) fun a ha hkey hp => ?_⟩
      · simp [hst, h.isLiveSlot_of_dead hdead]
      · exact absurd (h.tombstone_of_dead hdead ha hkey) (ne_true_of_eq_false hp)
    · exact ⟨⟨h.table.counted.countDropped, h.table.dense, h.table.present⟩,
        h.arms.congr fun _ _ => rfl⟩
  · exact ⟨h.table, h.arms⟩

end

/-! ## §4 Settling the arms -/

omit [DecidableEq K] in
/-- The stamp a commit stores is a tombstone exactly for a tombstone arm, as long as a locally
    minted stamp stays below bit 63. -/
theorem committedStamp_isTombstone {applied : Bool} {st : MvccStamper K} {mvcc : UInt64}
    (originIdx : ℕ) (a : Armed K) (hrange : applied = false → mvcc.toNat < 2 ^ 63) :
    (committedStamp applied st mvcc originIdx a).isTombstone = a.tombstone := by
  cases ht : a.tombstone with
  | true =>
    cases applied with
    | true => simp [committedStamp, ht]
    | false =>
      simp only [committedStamp, commitStamp, ht, if_true, false_eq_true, if_false]
      exact MvccStamp.asTombstone_isTombstone ⟨mvcc, _⟩
  | false =>
    cases applied with
    | true => simp [committedStamp, ht]
    | false =>
      simp only [committedStamp, commitStamp, ht, false_eq_true, if_false]
      rw [eq_false_iff, ne_eq, MvccStamp.isTombstone_iff, not_le]
      exact hrange rfl

theorem recordEntry_inv (h : s.Inv) (originIdx : ℕ) (mvcc : UInt64) (expiredFlag : Bool)
    (nowMs : UInt64) (hsound : s.Sound (.recordEntry originIdx mvcc expiredFlag nowMs)) :
    ∃ s', s.exec (.recordEntry originIdx mvcc expiredFlag nowMs) = some s' ∧ s'.Inv := by
  -- minting leaves the arms alone
  obtain ⟨⟨st, m⟩, hst⟩ : ∃ r, DbSlice.entryStamp s.slice.stamper mvcc nowMs = r := ⟨_, rfl⟩
  have harmed : st.armed = s.slice.stamper.armed := by
    unfold DbSlice.entryStamp at hst
    split at hst <;> cases hst <;> simp
  have hslots : ∀ a ∈ st.armed, (s.slice.table.getMvcc a.key).isSome = true := by
    rw [harmed]
    exact h.arms.slot
  cases hexp : expiredFlag with
  | true =>
    refine ⟨⟨⟨s.slice.table, st⟩, s.inserting⟩, ?_, h.table, ?_⟩
    · simp [exec, DbSlice.recordEntry, hst]
    · exact harmed ▸ h.arms
  | false =>
    rcases hsound with hs | ⟨hclock, htomb⟩
    · rw [hexp] at hs
      exact absurd hs (by simp)
    obtain ⟨t', hcommit, hprime, hcount, hget⟩ :=
      commit_spec (decide (mvcc ≠ 0)) st m originIdx hslots
    have hrange : decide (mvcc ≠ 0) = false → m.toNat < 2 ^ 63 := by
      intro hloc
      have hzero : mvcc = 0 := by simpa using hloc
      simp only [DbSlice.entryStamp, hzero, if_true, Prod.mk.injEq] at hst
      rw [← hst.2, UInt64.toNat_max]
      exact max_lt (mintHop_lt (hclock hzero)) (localMintFloor_lt _)
    refine ⟨⟨⟨t', { st with armed := [] }⟩, s.inserting⟩, ?_, ⟨hcount h.table.counted, ?_, ?_⟩,
      ArmsOk.nil _⟩
    · simp only [exec, DbSlice.recordEntry, hst, false_eq_true, if_false, hcommit, map_some]
    · intro key
      have hold := h.table.dense key
      rw [hget, hprime]
      rcases lastStamp_cases (committedStamp (decide (mvcc ≠ 0)) st m originIdx) st.armed key
        (s.slice.table.getMvcc key) with ⟨-, heq⟩ | ⟨pre, a, post, has, hkey, hpost, heq⟩
      · rw [heq]
        exact hold
      · have hmem : a ∈ s.slice.stamper.armed := by
          rw [← harmed, has]
          exact mem_append_cons_self
        rw [heq, isLiveSlot_some, committedStamp_isTombstone originIdx a hrange, ← hold]
        cases ht : a.tombstone with
        | false =>
          have hlive := h.arms.live a hmem ht
          rw [hkey] at hlive
          simp [hlive]
        | true =>
          -- the key has no plain arm, so soundness says that it is not live
          have honly := TombstoneFirst.only (by rw [← has, harmed]; exact h.arms.first) ht
            (fun b hb => hkey ▸ hpost b hb)
          have hdead : isLiveSlot (s.slice.table.getMvcc key) = false := by
            rw [eq_false_iff]
            intro hlive
            rw [← hkey, ← h.settled_iff_live] at hlive
            obtain ⟨b, hb, hbkey, hbt⟩ := htomb a hmem ht hlive
            rw [honly b (by rw [← has, harmed]; exact hb) hbkey] at hbt
            exact absurd hbt (by simp)
          simp [hdead]
    · intro key hk
      rw [hprime]
      exact h.table.present key hk

theorem commitOwnTombstone_inv (h : s.Inv) (hsound : s.Sound (.commitOwnTombstone key)) :
    ∃ s', s.exec (.commitOwnTombstone key) = some s' ∧ s'.Inv := by
  cases harm : s.slice.stamper.tombstoneArm? key with
  | none =>
    refine ⟨s, ?_, h⟩
    simp [exec, DbSlice.commitOwnTombstone, commitOwnTombstone, harm]
  | some a =>
    have hdead : s.settled key = false := hsound (by simp [harm])
    obtain ⟨⟨-, hkey⟩, pre, post, has, hpre, herase⟩ := exists_of_tombstoneArm? harm
    have hsub : (pre ++ post).Sublist s.slice.stamper.armed := by
      rw [has]
      exact (sublist_cons_self a post).append_left pre
    -- the key's only arm was the one just consumed
    have hnone : ∀ b ∈ pre ++ post, b.key ≠ key := by
      intro b hb hbkey
      have hbt := h.tombstone_of_dead hdead (hsub.subset hb) hbkey
      rcases mem_append.mp hb with hb | hb
      · exact absurd (hpre b hb hbkey) (ne_false_of_eq_true hbt)
      · have hlater := (pairwise_append.mp (has ▸ h.arms.first)).2.1
        have hplain := (pairwise_cons.mp hlater).1 b hb (hkey.trans hbkey.symm)
        exact absurd hplain (ne_false_of_eq_true hbt)
    -- either way the slot ends dead, and the key was dead before
    have hfinish : ∀ {t : DbTable K V} {new : Option MvccStamp},
        SlotWrite s.slice.table t key new → isLiveSlot new = false →
        Inv (⟨⟨t, { s.slice.stamper with armed := pre ++ post }⟩, s.inserting⟩ :
          DenseState K V) := by
      intro t new hw hnew
      refine ⟨h.table.slotWrite hw (hnew.trans (h.isLiveSlot_of_dead hdead).symm), ?_⟩
      exact (h.arms.sublist hsub).congr fun b hb => hw.lookup_other b.key (hnone b hb)
    have hslot : (s.slice.table.getMvcc key).isSome = true := by
      rw [← hkey]
      exact h.arms.slot a (by rw [has]; exact mem_append_cons_self)
    by_cases hprior : a.prevStamp.mvcc = 0
    · refine ⟨_, ?_, hfinish (s.slice.table.eraseMvcc_slotWrite key) rfl⟩
      simp [exec, DbSlice.commitOwnTombstone, commitOwnTombstone, harm, hprior,
        commitExpiry, herase]
    · obtain ⟨t', hset, hw⟩ := s.slice.table.setExistingMvcc_slotWrite key
        (expiryTombstoneFor a.prevStamp) hslot
      refine ⟨_, ?_, hfinish hw (by simp)⟩
      simp [exec, DbSlice.commitOwnTombstone, commitOwnTombstone, harm, hprior,
        commitExpiry, herase, hset]

theorem isLiveSlot_eq_false {slot : Option MvccStamp} (h : isTombstoneSlot slot = true) :
    isLiveSlot slot = false := by
  cases slot <;> simp_all

theorem endOfWriteEpoch_inv (h : s.Inv) :
    Inv (⟨s.slice.endOfWriteEpoch, s.inserting⟩ : DenseState K V) := by
  -- each rollback drops a tombstone slot or nothing
  have hfold : ∀ (as : List (Armed K)) {t : DbTable K V}, t.DenseBut s.inserting →
      (as.foldl (fun t a => if a.tombstone then t.rollbackUncommittedTombstone a.key else t)
        t).DenseBut s.inserting := by
    intro as
    induction as with
    | nil => exact fun ht => ht
    | cons a as ih =>
      intro t ht
      refine ih ?_
      beta_reduce
      split
      · unfold rollbackUncommittedTombstone
        split
        · exact ht.slotWrite (t.eraseMvcc_slotWrite a.key) (isLiveSlot_eq_false ‹_›).symm
        · exact ht
      · exact ht
  exact ⟨hfold _ h.table, ArmsOk.nil _⟩

theorem reapable_iff {t : DbTable K V} {ttlMs nowMs : UInt64}
    (h : t.reapable ttlMs nowMs key = true) : isLiveSlot (t.getMvcc key) = false := by
  unfold reapable at h
  cases hslot : t.getMvcc key with
  | none => rfl
  | some st =>
    simp only [hslot, and_eq_true] at h
    simp [h.1.1.1]

theorem tombstoneGcStep_inv (h : s.Inv) (ttlMs nowMs : UInt64) (visited : List K)
    (hsound : s.Sound (.tombstoneGcStep ttlMs nowMs visited)) :
    Inv (⟨⟨s.slice.table.tombstoneGcStep ttlMs nowMs visited, s.slice.stamper⟩,
      s.inserting⟩ : DenseState K V) := by
  have hfold : ∀ (ks : List K) {t : DbTable K V}, t.DenseBut s.inserting →
    ArmsOk t s.slice.stamper.armed →
      (∀ key ∈ ks, t.reapable ttlMs nowMs key = true → ∀ a ∈ s.slice.stamper.armed, a.key ≠ key) →
      (t.tombstoneGcStep ttlMs nowMs ks).DenseBut s.inserting ∧
        ArmsOk (t.tombstoneGcStep ttlMs nowMs ks) s.slice.stamper.armed := by
    intro ks
    induction ks with
    | nil => exact fun ht ha _ => ⟨ht, ha⟩
    | cons key ks ih =>
      intro t ht ha hok
      cases hreap : t.reapable ttlMs nowMs key with
      | false =>
        have hstep : t.tombstoneGcStep ttlMs nowMs (key :: ks) =
          t.tombstoneGcStep ttlMs nowMs ks := by
          simp [tombstoneGcStep, hreap]
        rw [hstep]
        exact ih ht ha fun k hk => hok k (mem_cons_of_mem _ hk)
      | true =>
        have hstep : t.tombstoneGcStep ttlMs nowMs (key :: ks) =
            (t.eraseMvcc key).tombstoneGcStep ttlMs nowMs ks := by
          simp [tombstoneGcStep, hreap]
        have hw := t.eraseMvcc_slotWrite key
        have hne := hok key mem_cons_self hreap
        rw [hstep]
        refine ih (ht.slotWrite hw (reapable_iff hreap).symm)
          (ha.congr fun a hmem => hw.lookup_other a.key (hne a hmem)) ?_
        -- a slot that is reapable now was reapable before
        intro k hk hreap' a hmem
        refine hok k (mem_cons_of_mem _ hk) ?_ a hmem
        have hkne : k ≠ key := by
          rintro rfl
          simp [reapable, hw.lookup_self] at hreap'
        unfold reapable at hreap' ⊢
        rw [← hw.lookup_other k hkne, ← hw.prime]
        exact hreap'
  obtain ⟨htable, harms⟩ := hfold visited h.table h.arms hsound
  exact ⟨htable, harms⟩

/-- **One operation**: legal and sound operations pass every `CHECK` and keep the invariant. -/
theorem exec_inv (h : s.Inv) (op : DenseOp K V) (hlegal : s.Legal op) (hsound : s.Sound op) :
    ∃ s', s.exec op = some s' ∧ s'.Inv := by
  cases op with
  | insert key value => exact ⟨_, rfl, insert_inv h hlegal value⟩
  | postUpdate key => exact ⟨_, rfl, postUpdate_inv h hlegal⟩
  | delete cfg key reason => exact ⟨_, rfl, delete_inv h cfg reason hlegal⟩
  | recordEntry originIdx mvcc expiredFlag nowMs =>
    exact recordEntry_inv h originIdx mvcc expiredFlag nowMs hsound
  | commitOwnTombstone key => exact commitOwnTombstone_inv h hsound
  | load key value stamp => exact ⟨_, rfl, load_inv h value stamp hlegal⟩
  | installAbsentKeyTombstone cfg key stamp =>
    exact ⟨_, rfl, installAbsentKeyTombstone_inv h cfg hlegal.1 hlegal.2⟩
  | endOfWriteEpoch => exact ⟨_, rfl, endOfWriteEpoch_inv h⟩
  | tombstoneGcStep ttlMs nowMs visited =>
    exact ⟨_, rfl, tombstoneGcStep_inv h ttlMs nowMs visited hsound⟩

/-! ## §5 Runs -/

theorem init_inv (originHash : ℕ → UInt64) : (init originHash : DenseState K V).Inv := by
  refine ⟨⟨⟨rfl, rfl⟩, ?_, ?_⟩, ArmsOk.nil _⟩
  · simp [init, empty, getMvcc]
  · intro key hk
    exact absurd hk (notMem_empty key)

/-- **Dense side table**: along every run of legal and sound operations no `CHECK` fails, the
    counters are exact, and the table is dense whenever no insert is in progress. -/
theorem dense_of_run (originHash : ℕ → UInt64) (ops : List (DenseOp K V))
    (hrun : Lib.RunAll exec (fun s op => s.Legal op ∧ s.Sound op) (init originHash) ops) :
    ∃ s, Lib.run exec (init originHash) ops = some s ∧ s.slice.table.Counted ∧
      (s.inserting = ∅ → s.slice.table.Dense) := by
  obtain ⟨s, hs, hinv⟩ := Lib.run_inv (fun _ op h hop => exec_inv h op hop.1 hop.2)
    (init_inv originHash) hrun
  refine ⟨s, hs, hinv.table.counted, fun hempty => ?_⟩
  have htable := hinv.table
  rw [hempty] at htable
  exact htable.toDense

/-- A key is written, deleted and written again in one epoch, and the collector runs. -/
theorem dense_of_run_recreate :
    let cfg : TombstoneConfig := ⟨true, 8⟩
    let ops : List (DenseOp ℕ ℕ) := [.insert 0 1, .postUpdate 0, .recordEntry 0 0 false 1,
      .endOfWriteEpoch, .delete cfg 0 .explicit, .insert 0 2, .postUpdate 0,
      .recordEntry 0 0 false 2, .endOfWriteEpoch, .tombstoneGcStep 0 9 [0]]
    ∃ s : DenseState ℕ ℕ, Lib.run exec (init fun _ => 7) ops = some s ∧ s.slice.table.Counted ∧
      (s.inserting = ∅ → s.slice.table.Dense) :=
  dense_of_run (fun _ => 7) _ (by decide +kernel)

/-- A key is deleted, loaded again before the delete's journal entry is committed, and then that
    entry's tombstone lands on the live key: every call is legal, and the table is not dense. -/
theorem load_over_pending_delete_breaks_density :
    let ops : List (DenseOp ℕ ℕ) := [.insert 0 1, .postUpdate 0, .recordEntry 0 0 false 1,
      .endOfWriteEpoch, .delete ⟨true, 8⟩ 0 .explicit, .load 0 2 ⟨5, 1⟩, .recordEntry 0 0 false 2]
    Lib.RunAll exec Legal (init fun _ => 7 : DenseState ℕ ℕ) ops ∧
      ∃ s : DenseState ℕ ℕ, Lib.run exec (init fun _ => 7) ops = some s ∧ s.inserting = ∅ ∧
        ¬ s.slice.table.Dense := by
  intro ops
  refine ⟨by decide +kernel, ?_⟩
  obtain ⟨s, hs⟩ : ∃ s, Lib.run exec (init fun _ => 7 : DenseState ℕ ℕ) ops = some s :=
    isSome_iff_exists.mp (by decide +kernel)
  have hfacts : (Lib.run exec (init fun _ => 7 : DenseState ℕ ℕ) ops).map (fun s =>
      (s.inserting, decide (0 ∈ s.slice.table.tombstoneKeys),
        decide (0 ∈ s.slice.table.prime.keys))) = some (∅, true, true) := by decide +kernel
  simp only [hs, map_some, some.injEq, Prod.mk.injEq, decide_eq_true_eq] at hfacts
  refine ⟨s, hs, hfacts.1, fun hdense => ?_⟩
  exact disjoint_left.mp hdense.disjoint hfacts.2.1 hfacts.2.2

end DenseState

end Drakeydb.Mvcc
