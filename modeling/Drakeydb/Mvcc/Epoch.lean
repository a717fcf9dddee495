import Drakeydb.Mvcc.DenseTable

/-!
# Stamps of a Write Epoch

One shard callback is an epoch: writes and deletes arm keys, journal entries commit their stamp to
everything armed, an expiry settles its own tombstone, and the end of the epoch rolls back what is
still pending. So a stamp that an epoch leaves behind comes from a journaled entry or from the stamp
of the value that expired, and nothing of the machinery itself (placeholders, arms) survives.

This module has the operations of an epoch, what each of them does to slots and arms, and the
vocabulary for histories: the last mutation of a key, the stamp it had then, the entry that
committed it. The invariant and the result are in `Drakeydb.Mvcc.EpochStamps`.
-/

namespace Drakeydb.Mvcc

open List Option MvccStamp MvccStamper Bool

/-! ## §1 Epochs -/

/-- The operations of an epoch that touch stamps. -/
inductive EpochOp (K : Type*) where
  | postUpdate (key : K)
  | delete (cfg : TombstoneConfig) (key : K) (reason : DeleteReason)
  | recordExpiry (key : K) (replMvcc nowMs : UInt64)
  | recordEntry (originIdx : ℕ) (mvcc : UInt64) (expiredFlag : Bool) (nowMs : UInt64)

namespace EpochOp

variable {K : Type*} [DecidableEq K]

/-- Does the operation mutate the key, and is it a delete? -/
def mutation (key : K) : EpochOp K → Option Bool
  | .postUpdate k => if k = key then some false else none
  | .delete _ k _ => if k = key then some true else none
  | .recordExpiry .. | .recordEntry .. => none

omit [DecidableEq K] in
/-- A journaled command that is not flagged as an expiry. -/
def commits : EpochOp K → Bool
  | .recordEntry _ _ expiredFlag _ => !expiredFlag
  | .postUpdate _ | .delete .. | .recordExpiry .. => false

end EpochOp

namespace DbSlice

variable {K V : Type*} [DecidableEq K]

/-- One operation; `none` is a failed `CHECK`. -/
def epochStep (s : DbSlice K V) : EpochOp K → Option (DbSlice K V)
  | .postUpdate key => some (s.postUpdate key)
  | .delete cfg key reason => some (s.performDeletionAtomic cfg key reason)
  | .recordExpiry key replMvcc nowMs => s.recordExpiryBlocking key replMvcc nowMs
  | .recordEntry originIdx mvcc expiredFlag nowMs =>
    (s.recordEntry originIdx mvcc expiredFlag nowMs).map Prod.snd

/-- The stamp of a key, empty if it has none. -/
def stampOf (s : DbSlice K V) (key : K) : MvccStamp := (s.table.getMvcc key).getD MvccStamp.zero

/-- Between epochs: nothing is armed, and no slot holds the placeholder. -/
structure Quiet (s : DbSlice K V) : Prop where
  unarmed : s.stamper.armed = []
  settled : ∀ key, s.table.getMvcc key ≠ some placeholder

/-- Stamps that are stamps: a local entry meets a clock in range, and an applied one has a magnitude
    besides the tombstone bit. -/
def StampInRange (s : DbSlice K V) : EpochOp K → Prop
  | .recordEntry _ mvcc false nowMs =>
    if mvcc = 0 then s.stamper.ClockInRange nowMs else (⟨mvcc, 0⟩ : MvccStamp).mvcc ≠ 0
  | .recordEntry _ _ true _ | .postUpdate _ | .delete .. | .recordExpiry .. => True

instance (s : DbSlice K V) : (op : EpochOp K) → Decidable (s.StampInRange op)
  | .recordEntry _ mvcc false nowMs =>
    inferInstanceAs (Decidable
      (if mvcc = 0 then s.stamper.ClockInRange nowMs else (⟨mvcc, 0⟩ : MvccStamp).mvcc ≠ 0))
  | .recordEntry _ _ true _ => isTrue trivial
  | .postUpdate _ => isTrue trivial
  | .delete .. => isTrue trivial
  | .recordExpiry .. => isTrue trivial

end DbSlice

/-- A stamp with its tombstone bit set or cleared. -/
def MvccStamp.withTombstone (s : MvccStamp) (tombstone : Bool) : MvccStamp :=
  if tombstone then s.asTombstone else s.masked

namespace MvccStamp

private theorem or_bit_or_bit (x : UInt64) :
    x ||| kTombstoneBit ||| kTombstoneBit = x ||| kTombstoneBit := by
  simp [UInt64.or_assoc]

theorem asTombstone_floorAppliedStamp (stored incoming : MvccStamp) :
    (floorAppliedStamp stored incoming.asTombstone).asTombstone
      = (floorAppliedStamp stored incoming).asTombstone := by
  have hlt : incoming.asTombstone.lt stored = incoming.lt stored := by
    rw [lt_eq_decide_rank, lt_eq_decide_rank,
      (rank_eq_iff _ _).mpr ⟨asTombstone_mvcc incoming, rfl⟩]
  have hbit (x : UInt64) (t : Bool) :
      x ||| (if t then kTombstoneBit else 0) ||| kTombstoneBit = x ||| kTombstoneBit := by
    cases t with
    | true => exact or_bit_or_bit x
    | false => simp
  unfold floorAppliedStamp
  rw [hlt]
  split
  · exact asTombstone_eq_self (asTombstone_isTombstone incoming)
  · by_cases hauthor : stored.originHash = 0
    · simp only [hauthor, if_true]
      exact congrArg (mk · _) ((hbit _ _).trans (hbit _ _).symm)
    · simp only [hauthor, if_false]
      exact congrArg (mk · _) ((hbit _ _).trans (hbit _ _).symm)

/-- A stamp with a magnitude or an author is not the placeholder, whatever its tombstone bit. -/
theorem withTombstone_ne_placeholder {s : MvccStamp} (h : s.mvcc ≠ 0 ∨ s.originHash ≠ 0)
    (tombstone : Bool) : s.withTombstone tombstone ≠ placeholder := by
  intro heq
  cases tombstone with
  | false =>
    have := congrArg isTombstone heq
    simp [withTombstone] at this
  | true =>
    rcases h with h | h
    · apply h
      have := congrArg mvcc heq
      simpa [withTombstone] using this
    · apply h
      exact congrArg originHash heq

theorem floorAppliedStamp_ne_zero (stored : MvccStamp) {incoming : MvccStamp}
    (h : incoming.mvcc ≠ 0) :
    (floorAppliedStamp stored incoming).mvcc ≠ 0 ∨
      (floorAppliedStamp stored incoming).originHash ≠ 0 := by
  unfold floorAppliedStamp
  split
  · exact .inl h
  case isFalse hfloor =>
    have hstored : stored.mvcc ≠ 0 := fun h0 => hfloor (.inl h0)
    simp only
    split
    · right
      show (0xFFFFFFFFFFFFFFFF : UInt64) ≠ 0
      decide
    · left
      intro h0
      apply hstored
      have h0' := congrArg UInt64.toNat h0
      rw [mvcc_toNat] at h0'
      have hlt := stored.mvcc_toNat_lt
      apply UInt64.toNat_inj.mp
      -- the bit does not reach the magnitude
      split at h0'
      · rw [or_kTombstoneBit_toNat, Nat.add_mod_left, Nat.mod_mod, Nat.mod_eq_of_lt hlt] at h0'
        exact h0'
      · rw [UInt64.or_zero, Nat.mod_eq_of_lt hlt] at h0'
        exact h0'

end MvccStamp

theorem MvccStamper.mintHop_pos {K : Type*} {st : MvccStamper K} {nowMs : UInt64}
    (h : st.ClockInRange nowMs) : 0 < (st.mintHop nowMs).hopStamp.toNat := by
  have hlast := h.last
  have hnow := h.now
  have hne : (st.mintHop nowMs).hopStamp ≠ 0 := mintHop_hopStamp_ne_zero (by omega) (by omega)
  exact Nat.pos_of_ne_zero fun h0 => hne (UInt64.toNat_inj.mp h0)

theorem committedStamp_local {K : Type*} {st : MvccStamper K} {m : UInt64} (originIdx : ℕ)
    (a : Armed K) (hm : m.toNat < 2 ^ 63) :
    committedStamp false st m originIdx a
      = (⟨m, st.originHash originIdx⟩ : MvccStamp).withTombstone a.tombstone := by
  cases ht : a.tombstone with
  | true => simp [committedStamp, commitStamp, ht, withTombstone, asTombstone]
  | false =>
    simp only [committedStamp, commitStamp, ht, withTombstone, false_eq_true, if_false]
    exact (masked_eq_self (mk_isTombstone_of_lt hm _)).symm

/-- What one arm gets from an applied entry: the entry's stamp, floored. -/
theorem committedStamp_applied {K : Type*} (st : MvccStamper K) (m : UInt64) (originIdx : ℕ)
    (a : Armed K) :
    committedStamp true st m originIdx a
      = (floorAppliedStamp a.prevStamp ⟨m, st.originHash originIdx⟩).withTombstone a.tombstone := by
  cases ht : a.tombstone with
  | true =>
    simp only [committedStamp, commitStamp, ht, withTombstone, if_true]
    exact asTombstone_floorAppliedStamp a.prevStamp ⟨m, st.originHash originIdx⟩
  | false => simp [committedStamp, commitStamp, ht, withTombstone]

/-! ## §2 What an operation does to slots and arms -/

namespace DbSlice

variable {K V : Type*} [DecidableEq K] {s s' : DbSlice K V}

/-- `PostUpdate` keeps a live slot, replaces any other by the empty stamp, and adds one arm. -/
theorem postUpdate_cases (s : DbSlice K V) (key : K) :
    (∀ j, j ≠ key → (s.postUpdate key).table.getMvcc j = s.table.getMvcc j) ∧
      ((s.postUpdate key).table.getMvcc key = s.table.getMvcc key ∧
          isTombstoneSlot (s.table.getMvcc key) = false ∨
        (s.postUpdate key).table.getMvcc key = some MvccStamp.zero) ∧
      (s.postUpdate key).stamper = s.stamper.arm key (s.stampOf key) := by
  obtain ⟨new, -, hw, hprev⟩ := s.table.ensureMvcc_slotWrite key
  refine ⟨hw.lookup_other, ?_, ?_⟩
  · rcases hslot : s.table.getMvcc key with _ | st
    · right
      simp only [postUpdate, DbTable.ensureMvcc, hslot]
      exact Finmap.lookup_insert _
    · cases hst : st.isTombstone with
      | true =>
        right
        simp only [postUpdate, DbTable.ensureMvcc, hslot, hst, if_true]
        exact Finmap.lookup_insert _
      | false =>
        left
        simp only [postUpdate, DbTable.ensureMvcc, hslot, hst, false_eq_true, if_false]
        exact ⟨trivial, hst⟩
  · simp [postUpdate, hprev, stampOf]

/-- `PerformDeletionAtomic` drops the arms of the key, and leaves a placeholder with an arm that
    remembers the stamp, or no slot. -/
theorem performDeletionAtomic_cases (cfg : TombstoneConfig) (s : DbSlice K V) (key : K)
    (reason : DeleteReason) : let s' := s.performDeletionAtomic cfg key reason
    (∀ j, j ≠ key → s'.table.getMvcc j = s.table.getMvcc j) ∧
      s'.stamper.originHash = s.stamper.originHash ∧
      (s'.table.getMvcc key = some placeholder ∧
          s'.stamper.armed = (s.stamper.disarm key).armed ++ [⟨key, true, s.stampOf key⟩] ∨
        s'.table.getMvcc key = none ∧ s'.stamper.armed = (s.stamper.disarm key).armed) := by
  intro s'
  have hdropped : ∀ t : DbTable K V, (∀ j, t.getMvcc j = s.table.getMvcc j) →
      (∀ j, j ≠ key → ((t.eraseMvcc key).erasePrime key).getMvcc j = s.table.getMvcc j) ∧
        ((t.eraseMvcc key).erasePrime key).getMvcc key = none := by
    intro t ht
    have hw := t.eraseMvcc_slotWrite key
    exact ⟨fun j hj => (hw.lookup_other j hj).trans (ht j), hw.lookup_self⟩
  cases hcase : earnsTombstone cfg reason &&
      decide (s.table.stats.mvccTombstones < cfg.maxTombstones) with
  | true =>
    have hw := s.table.setTombstone_slotWrite key placeholder_isTombstone
    simp only [s', performDeletionAtomic, hcase, if_true]
    exact ⟨hw.lookup_other, rfl, .inl ⟨hw.lookup_self, rfl⟩⟩
  | false =>
    simp only [s', performDeletionAtomic, hcase, false_eq_true, if_false]
    cases earnsTombstone cfg reason with
    | true =>
      obtain ⟨hother, hself⟩ := hdropped s.table.countDropped fun _ => rfl
      exact ⟨hother, rfl, .inr ⟨hself, trivial⟩⟩
    | false =>
      obtain ⟨hother, hself⟩ := hdropped s.table fun _ => rfl
      exact ⟨hother, rfl, .inr ⟨hself, trivial⟩⟩

omit [DecidableEq K] in
theorem entryStamp_frame (st : MvccStamper K) (mvcc nowMs : UInt64) :
    (entryStamp st mvcc nowMs).1.armed = st.armed ∧
      (entryStamp st mvcc nowMs).1.originHash = st.originHash := by
  unfold entryStamp
  split
  · exact ⟨mintHop_armed st nowMs, mintHop_originHash st nowMs⟩
  · exact ⟨rfl, rfl⟩

theorem recordEntry_expired (s : DbSlice K V) (originIdx : ℕ) (mvcc nowMs : UInt64) :
    s.recordEntry originIdx mvcc true nowMs
      = some ((entryStamp s.stamper mvcc nowMs).2,
        ⟨s.table, (entryStamp s.stamper mvcc nowMs).1⟩) := rfl

theorem foldlM_setExisting_eq_some {f : Armed K → MvccStamp} {as : List (Armed K)}
    {t t' : DbTable K V}
    (h : as.foldlM (fun t a => t.setExistingMvcc a.key (f a)) t = some t') (key : K) :
    t'.getMvcc key = lastStamp f as key (t.getMvcc key) := by
  induction as generalizing t with
  | nil =>
    cases h
    rfl
  | cons a as ih =>
    obtain ⟨t1, ht1, hrest⟩ := bind_eq_some_iff.mp h
    have hw := DbTable.slotWrite_of_setExistingMvcc ht1
    rw [ih hrest, hw.getMvcc]
    simp [lastStamp, eq_comm (a := key)]

/-- Any other entry commits its stamp to every arm. -/
theorem recordEntry_cases {originIdx : ℕ} {mvcc nowMs : UInt64} {m : UInt64}
    (h : s.recordEntry originIdx mvcc false nowMs = some (m, s')) :
    m = (entryStamp s.stamper mvcc nowMs).2 ∧ s'.stamper.armed = [] ∧
      s'.stamper.originHash = s.stamper.originHash ∧
      ∀ key, s'.table.getMvcc key
        = lastStamp (committedStamp (decide (mvcc ≠ 0)) (entryStamp s.stamper mvcc nowMs).1 m
            originIdx) s.stamper.armed key (s.table.getMvcc key) := by
  obtain ⟨harmed, horigin⟩ := entryStamp_frame s.stamper mvcc nowMs
  obtain ⟨⟨st, m'⟩, hst⟩ : ∃ r, entryStamp s.stamper mvcc nowMs = r := ⟨_, rfl⟩
  simp only [recordEntry, hst, false_eq_true, if_false] at h harmed horigin ⊢
  obtain ⟨⟨st', t'⟩, hcommit, heq⟩ := map_eq_some_iff.mp h
  cases heq
  obtain ⟨t1, hfold, heq⟩ := map_eq_some_iff.mp hcommit
  cases heq
  refine ⟨rfl, rfl, horigin, fun key => ?_⟩
  have hfn : (fun (t : DbTable K V) (a : Armed K) => DbTable.commitEntry (decide (mvcc ≠ 0)) t a.key
      (st.commitStamp m originIdx a) a.tombstone a.prevStamp) =
      fun t a => t.setExistingMvcc a.key (committedStamp (decide (mvcc ≠ 0)) st m originIdx a) := by
    funext t a
    cases decide (mvcc ≠ 0) <;> rfl
  rw [hfn, harmed] at hfold
  exact foldlM_setExisting_eq_some hfold key

/-- `RecordExpiryBlocking` settles the first tombstone arm of its key, if there is one. -/
theorem recordExpiryBlocking_cases {key : K} {replMvcc nowMs : UInt64}
    (h : s.recordExpiryBlocking key replMvcc nowMs = some s') :
    s'.stamper.originHash = s.stamper.originHash ∧
      (∀ j, j ≠ key → s'.table.getMvcc j = s.table.getMvcc j) ∧
      (s.stamper.tombstoneArm? key = none ∧ s'.table.getMvcc key = s.table.getMvcc key ∧
          s'.stamper.armed = s.stamper.armed ∨ ∃ a, s.stamper.tombstoneArm? key = some a ∧
            s'.stamper.armed
            = (s.stamper.armed.eraseP fun b => b.tombstone && decide (b.key = key)) ∧
          (s'.table.getMvcc key = none ∨ a.prevStamp.mvcc ≠ 0 ∧
              s'.table.getMvcc key = some (expiryTombstoneFor a.prevStamp))) := by
  obtain ⟨⟨found, s1⟩, hslice, hentry⟩ := bind_eq_some_iff.mp h
  obtain ⟨⟨found, st1, t1⟩, hown, heq⟩ := map_eq_some_iff.mp hslice
  cases heq
  -- the flagged entry only mints
  dsimp only at hentry
  rw [recordEntry_expired] at hentry
  cases hentry
  obtain ⟨harmed, horigin⟩ := entryStamp_frame st1
    (if found then (s.expiryStamp key).mvcc else replMvcc) nowMs
  simp only [harmed, horigin]
  rcases harm : s.stamper.tombstoneArm? key with _ | a
  · simp only [MvccStamper.commitOwnTombstone, harm] at hown
    cases hown
    exact ⟨rfl, fun _ _ => rfl, .inl ⟨rfl, rfl, rfl⟩⟩
  · simp only [MvccStamper.commitOwnTombstone, harm] at hown
    obtain ⟨t', hfn, heq⟩ := map_eq_some_iff.mp hown
    cases heq
    by_cases hprior : a.prevStamp.mvcc = 0
    · simp only [hprior, ne_eq, not_true_eq_false, decide_false, DbTable.commitExpiry,
        false_eq_true, if_false] at hfn
      cases hfn
      have hw := s.table.eraseMvcc_slotWrite key
      exact ⟨rfl, hw.lookup_other, .inr ⟨a, rfl, rfl, .inl hw.lookup_self⟩⟩
    · simp only [hprior, ne_eq, not_false_eq_true, decide_true, DbTable.commitExpiry,
        if_true] at hfn
      have hw := DbTable.slotWrite_of_setExistingMvcc hfn
      exact ⟨rfl, hw.lookup_other, .inr ⟨a, rfl, rfl, .inr ⟨hprior, hw.lookup_self⟩⟩⟩

end DbSlice

/-! ## §3 Histories -/

section History

variable {K V : Type*} [DecidableEq K] {s : DbSlice K V} {ops : List (EpochOp K)} {key : K}

/-- The key was mutated when its stamp was `prev`, and nothing has been committed since. -/
def MutatedSince (s : DbSlice K V) (ops : List (EpochOp K)) (key : K) (prev : MvccStamp) : Prop :=
  ∃ pre m post s1, ops = pre ++ m :: post ∧ Lib.run DbSlice.epochStep s pre = some s1 ∧
    s1.stampOf key = prev ∧ m.mutation key ≠ none ∧ ∀ x ∈ post, x.commits = false

/-- The last mutation of the key, a delete or not, and nothing has been committed since. -/
def LastMutation (ops : List (EpochOp K)) (key : K) (isDelete : Bool) : Prop :=
  ∃ pre m post, ops = pre ++ m :: post ∧ m.mutation key = some isDelete ∧
    ∀ x ∈ post, x.mutation key = none ∧ x.commits = false

/-- The key was last deleted when its stamp was `prev`. -/
def DeletedAt (s : DbSlice K V) (ops : List (EpochOp K)) (key : K) (prev : MvccStamp) : Prop :=
  ∃ pre m post s1, ops = pre ++ m :: post ∧ Lib.run DbSlice.epochStep s pre = some s1 ∧
    s1.stampOf key = prev ∧ m.mutation key = some true ∧ ∀ x ∈ post, x.mutation key ≠ some true

/-- The key was updated, and has not been deleted or committed since. -/
def PendingUpdate (ops : List (EpochOp K)) (key : K) : Prop :=
  ∃ pre m post, ops = pre ++ m :: post ∧ m.mutation key = some false ∧
    ∀ x ∈ post, x.mutation key ≠ some true ∧ x.commits = false

/-- Every mutation of the key is an update that no commit has followed. -/
def OnlyPendingUpdates (ops : List (EpochOp K)) (key : K) : Prop :=
  ∀ pre m post, ops = pre ++ m :: post → m.mutation key ≠ none →
    m.mutation key = some false ∧ ∀ x ∈ post, x.commits = false

/-- The stamp is that of a journaled entry: the entry follows a mutation of the key, the stamp is
the entry's own or, for an applied entry, floored by what the key had before a mutation it commits,
the tombstone bit says whether the last mutation before it was a delete, and later mutations of the
key are updates that no entry has followed. -/
def CommittedBy (s : DbSlice K V) (ops : List (EpochOp K)) (key : K) (stamp : MvccStamp) : Prop :=
  ∃ pre originIdx mvcc nowMs post s1 s2 m isDelete,
    ops = pre ++ .recordEntry originIdx mvcc false nowMs :: post ∧
    Lib.run DbSlice.epochStep s pre = some s1 ∧
    s1.recordEntry originIdx mvcc false nowMs = some (m, s2) ∧ LastMutation pre key isDelete ∧
    (stamp = (⟨m, s.stamper.originHash originIdx⟩ : MvccStamp).withTombstone isDelete ∨
      mvcc ≠ 0 ∧ ∃ prev, MutatedSince s pre key prev ∧
        stamp =
          (floorAppliedStamp prev ⟨m, s.stamper.originHash originIdx⟩).withTombstone isDelete) ∧
    OnlyPendingUpdates post key

/-- The stamp is that of an expiry: the key was deleted, and `RecordExpiryBlocking` settled the
    delete with a tombstone just above the stamp it had. -/
def ExpiredTo (s : DbSlice K V) (ops : List (EpochOp K)) (key : K) (stamp : MvccStamp) : Prop :=
  ∃ pre replMvcc nowMs post prev, ops = pre ++ .recordExpiry key replMvcc nowMs :: post ∧
    DeletedAt s pre key prev ∧ prev.mvcc ≠ 0 ∧ stamp = expiryTombstoneFor prev

variable {x : EpochOp K}

omit [DecidableEq K] in
private theorem split_concat {y : EpochOp K} {pre post : List (EpochOp K)}
    (h : ops ++ [x] = pre ++ y :: post) :
    (post = [] ∧ pre = ops ∧ y = x) ∨ ∃ post', post = post' ++ [x] ∧ ops = pre ++ y :: post' := by
  rcases eq_nil_or_concat post with rfl | ⟨post', z, rfl⟩
  · left
    have h' := append_inj' h rfl
    exact ⟨rfl, h'.1.symm, (singleton_inj.mp h'.2).symm⟩
  · right
    have hassoc : pre ++ y :: (post' ++ [z]) = (pre ++ y :: post') ++ [z] := by simp
    rw [concat_eq_append, hassoc] at h
    have h' := append_inj' h rfl
    rw [concat_eq_append, singleton_inj.mp h'.2]
    exact ⟨post', rfl, h'.1⟩

variable {s1 : DbSlice K V}

theorem MutatedSince.now (hrun : Lib.run DbSlice.epochStep s ops = some s1)
    (hx : x.mutation key ≠ none) :
    MutatedSince s (ops ++ [x]) key (s1.stampOf key) :=
  ⟨ops, x, [], s1, rfl, hrun, rfl, hx, forall_mem_nil _⟩

variable {prev : MvccStamp}

theorem MutatedSince.concat (h : MutatedSince s ops key prev) (hx : x.commits = false) :
    MutatedSince s (ops ++ [x]) key prev := by
  obtain ⟨pre, m, post, s1, rfl, hrun, hprev, hm, hpost⟩ := h
  exact ⟨pre, m, post ++ [x], s1, by simp, hrun, hprev, hm,
    forall_mem_append.mpr ⟨hpost, forall_mem_singleton.mpr hx⟩⟩

variable {isDelete : Bool}

theorem LastMutation.now (hx : x.mutation key = some isDelete) :
    LastMutation (ops ++ [x]) key isDelete :=
  ⟨ops, x, [], rfl, hx, forall_mem_nil _⟩

theorem LastMutation.concat (h : LastMutation ops key isDelete) (hmut : x.mutation key = none)
    (hx : x.commits = false) : LastMutation (ops ++ [x]) key isDelete := by
  obtain ⟨pre, m, post, rfl, hm, hpost⟩ := h
  exact ⟨pre, m, post ++ [x], by simp, hm,
    forall_mem_append.mpr ⟨hpost, forall_mem_singleton.mpr ⟨hmut, hx⟩⟩⟩

theorem DeletedAt.now (hrun : Lib.run DbSlice.epochStep s ops = some s1)
    (hx : x.mutation key = some true) :
    DeletedAt s (ops ++ [x]) key (s1.stampOf key) :=
  ⟨ops, x, [], s1, rfl, hrun, rfl, hx, forall_mem_nil _⟩

theorem DeletedAt.concat (h : DeletedAt s ops key prev) (hx : x.mutation key ≠ some true) :
    DeletedAt s (ops ++ [x]) key prev := by
  obtain ⟨pre, m, post, s1, rfl, hrun, hprev, hm, hpost⟩ := h
  exact ⟨pre, m, post ++ [x], s1, by simp, hrun, hprev, hm,
    forall_mem_append.mpr ⟨hpost, forall_mem_singleton.mpr hx⟩⟩

variable {stamp : MvccStamp}

theorem ExpiredTo.concat (h : ExpiredTo s ops key stamp) (x : EpochOp K) :
    ExpiredTo s (ops ++ [x]) key stamp := by
  obtain ⟨pre, replMvcc, nowMs, post, prev, rfl, hrest⟩ := h
  exact ⟨pre, replMvcc, nowMs, post ++ [x], prev, by simp, hrest⟩

/-- The history may go on: the key is updated at most, and a commit finds no update of it
pending. -/
theorem CommittedBy.concat (h : CommittedBy s ops key stamp) (hdelete : x.mutation key ≠ some true)
    (hcommit : x.commits = true → ¬PendingUpdate ops key) : CommittedBy s
    (ops ++ [x]) key stamp := by
  obtain ⟨pre, originIdx, mvcc, nowMs, post, s1, s2, m, isDelete, rfl, hrun, hentry, hlast, hstamp,
    hpost⟩ := h
  refine ⟨pre, originIdx, mvcc, nowMs, post ++ [x], s1, s2, m, isDelete, by simp, hrun, hentry,
    hlast, hstamp, fun pre' y post' heq hy => ?_⟩
  rcases split_concat heq with ⟨rfl, -, rfl⟩ | ⟨post'', rfl, rfl⟩
  · refine ⟨?_, forall_mem_nil _⟩
    cases hmut : y.mutation key with
    | none => exact absurd hmut hy
    | some d =>
      cases d with
      | true => exact absurd hmut hdelete
      | false => rfl
  · obtain ⟨hfalse, hquiet⟩ := hpost pre' y post'' rfl hy
    refine ⟨hfalse, fun z hz => ?_⟩
    rcases mem_append.mp hz with hz | hz
    · exact hquiet z hz
    · rw [mem_singleton.mp hz, eq_false_iff]
      intro hcommits
      -- the update `y` would still be pending
      refine hcommit hcommits ⟨pre ++ .recordEntry originIdx mvcc false nowMs :: pre', y, post'',
        by simp, hfalse, fun z hz => ⟨fun hdel => ?_, hquiet z hz⟩⟩
      obtain ⟨l1, l2, rfl⟩ := append_of_mem hz
      have hz' := (hpost (pre' ++ y :: l1) z l2 (by simp) (by simp [hdel])).1
      rw [hdel] at hz'
      cases hz'

/-- A pending update was pending before, or is the last operation. -/
theorem PendingUpdate.of_concat (h : PendingUpdate (ops ++ [x]) key) : x.mutation key = some false ∨
      PendingUpdate ops key ∧ x.mutation key ≠ some true ∧ x.commits = false := by
  obtain ⟨pre, m, post, heq, hm, hpost⟩ := h
  rcases split_concat heq with ⟨rfl, -, rfl⟩ | ⟨post', rfl, rfl⟩
  · exact .inl hm
  · refine .inr ⟨⟨pre, m, post', rfl, hm, fun z hz => hpost z (mem_append_left _ hz)⟩, ?_⟩
    exact hpost x (mem_append_cons_self)

end History

end Drakeydb.Mvcc
