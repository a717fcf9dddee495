import Drakeydb.Mvcc.Epoch

/-!
# Local Writes against What They Overwrite

A locally minted entry takes the hop stamp or the floor of the pending arms, whichever is greater,
so a local write outranks the stamp that some arm of its key remembers, whatever the wall clock
reads. The stamp of a key is remembered by its first mutation in the epoch and by every later
update; a delete drops the arms of the key and remembers what the slot holds instead. Where an
earlier mutation of the epoch has replaced the slot by an empty one, nothing remembers the stamp any
more.
-/

namespace Drakeydb.Mvcc

open List Option MvccStamp MvccStamper

namespace DbSlice

variable {K V : Type*} [DecidableEq K]

/-- The operations of an epoch before the entry that commits the key: deletes of the key are
explicit and earn a tombstone, and the key neither expires nor is committed by an earlier entry. -/
def LocalMutation (key : K) (s : DbSlice K V) : EpochOp K → Prop
  | .postUpdate _ => True
  | .delete cfg k reason => k = key → reason = .explicit ∧ cfg.enabled = true ∧
      s.table.stats.mvccTombstones < cfg.maxTombstones
  | .recordExpiry k _ _ => k ≠ key
  | .recordEntry _ _ expiredFlag _ => expiredFlag = true ∨ ∀ a ∈ s.stamper.armed, a.key ≠ key

/-- Every delete of the key finds its stamp in the slot. -/
def DeletesStamped (key : K) (s : DbSlice K V) : EpochOp K → Prop
  | .delete _ k _ => k = key → (s.stampOf key).mvcc ≠ 0
  | .postUpdate _ | .recordExpiry .. | .recordEntry .. => True

instance decidableLocalMutation (key : K) (s : DbSlice K V) : DecidablePred (LocalMutation key s) :=
  fun op => by cases op <;> dsimp only [LocalMutation] <;> infer_instance

instance decidableDeletesStamped (key : K) (s : DbSlice K V) :
    DecidablePred (DeletesStamped key s) :=
  fun op => by cases op <;> dsimp only [DeletesStamped] <;> infer_instance

/-- The stamp `S` a key had when the epoch started: the slot still holds it and nothing is armed, or
    an arm of the key has it and the slot holds it or nothing. -/
def Remembers (key : K) (S : MvccStamp) (ops : List (EpochOp K)) (s : DbSlice K V) : Prop :=
  ((∀ op ∈ ops, op.mutation key = none) ∧ s.table.getMvcc key = some S ∧
    ∀ a ∈ s.stamper.armed, a.key ≠ key) ∨ (∃ a ∈ s.stamper.armed, a.key = key ∧ a.prevStamp = S) ∧
      (s.table.getMvcc key = some S ∨ (s.stampOf key).mvcc = 0)

variable {key : K} {S : MvccStamp} {ops : List (EpochOp K)} {s s' : DbSlice K V} {op : EpochOp K}

/-- An operation that is no mutation of the key, keeps its slot and its arms. -/
theorem Remembers.frame (h : Remembers key S ops s) (hop : op.mutation key = none)
    (hslot : s'.table.getMvcc key = s.table.getMvcc key)
    (harmed : ∀ a, a.key = key → (a ∈ s'.stamper.armed ↔ a ∈ s.stamper.armed)) :
    Remembers key S (ops ++ [op]) s' := by
  rcases h with ⟨hops, hS, hfree⟩ | ⟨⟨a, ha, hkey, hprev⟩, hheld⟩
  · refine .inl ⟨forall_mem_append.mpr ⟨hops, forall_mem_singleton.mpr hop⟩, hslot.trans hS, ?_⟩
    exact fun a ha hkey => hfree a ((harmed a hkey).mp ha) hkey
  · refine .inr ⟨⟨a, (harmed a hkey).mpr ha, hkey, hprev⟩, ?_⟩
    rwa [stampOf, hslot]

/-- An update arms the key with the stamp it had, or leaves the arm that has it. -/
theorem Remembers.postUpdate (hS : S.mvcc ≠ 0) (h : Remembers key S ops s) (k : K) :
    Remembers key S (ops ++ [.postUpdate k]) (s.postUpdate k) := by
  obtain ⟨hother, hself, harm⟩ := postUpdate_cases s k
  by_cases hk : k = key
  · subst hk
    right
    have hslot : (s.postUpdate k).table.getMvcc k = s.table.getMvcc k ∨
        ((s.postUpdate k).stampOf k).mvcc = 0 := by
      rcases hself with ⟨hsame, -⟩ | hzero
      · exact .inl hsame
      · right
        rw [stampOf, hzero]
        exact zero_mvcc
    rw [harm]
    rcases h with ⟨-, hheld, -⟩ | ⟨⟨a, ha, hkey, hprev⟩, hheld⟩
    · refine ⟨⟨_, mem_append_right _ mem_cons_self, rfl, ?_⟩, ?_⟩
      · simp [effectivePrev, stampOf, hheld, hS]
      · exact hslot.imp_left fun hsame => hsame.trans hheld
    · refine ⟨⟨a, mem_append_left _ ha, hkey, hprev⟩, ?_⟩
      rcases hslot with hsame | hzero
      · rwa [stampOf, hsame]
      · exact .inr hzero
  · refine h.frame (if_neg hk) (hother key (Ne.symm hk)) fun a ha => ?_
    rw [harm]
    simp only [arm, mem_append, mem_singleton, or_iff_left_iff_imp]
    rintro rfl
    exact absurd ha hk

/-- A delete that finds the stamp in the slot hands it to its own arm. -/
theorem Remembers.delete (h : Remembers key S ops s) {cfg : TombstoneConfig} {k : K}
    {reason : DeleteReason} (hlocal : LocalMutation key s (.delete cfg k reason))
    (hstamped : DeletesStamped key s (.delete cfg k reason)) :
    Remembers key S (ops ++ [.delete cfg k reason]) (s.performDeletionAtomic cfg k reason) := by
  by_cases hk : k = key
  · subst hk
    obtain ⟨rfl, henabled, hcap⟩ := hlocal rfl
    have hheld : s.table.getMvcc k = some S := by
      rcases h with ⟨-, hheld, -⟩ | ⟨-, hheld | hzero⟩
      · exact hheld
      · exact hheld
      · exact absurd hzero (hstamped rfl)
    have hw := s.table.setTombstone_slotWrite k placeholder_isTombstone
    right
    simp only [performDeletionAtomic, earnsTombstone, henabled, hcap, decide_true, Bool.true_or,
      Bool.and_true, if_true, hheld, getD_some, armTombstone]
    refine ⟨⟨_, mem_append_right _ mem_cons_self, rfl, rfl⟩, .inr ?_⟩
    simp [stampOf, hw.lookup_self]
  · obtain ⟨hother, -, hcases⟩ := performDeletionAtomic_cases cfg s k reason
    refine h.frame (if_neg hk) (hother key (Ne.symm hk)) fun a ha => ?_
    have hkeep : a ∈ (s.stamper.disarm k).armed ↔ a ∈ s.stamper.armed := by
      simp only [MvccStamper.disarm, mem_filter, decide_eq_true_eq, and_iff_left_iff_imp]
      exact fun _ hak => hk (hak.symm.trans ha)
    rcases hcases with ⟨-, harmed⟩ | ⟨-, harmed⟩
    · rw [harmed, mem_append, hkeep, mem_singleton, or_iff_left_iff_imp]
      rintro rfl
      exact absurd ha hk
    · rw [harmed, hkeep]

/-- **Step**: an operation that deletes no unstamped slot of the key keeps its stamp remembered. -/
theorem Remembers.step (hS : S.mvcc ≠ 0) (h : Remembers key S ops s)
    (hop : LocalMutation key s op ∧ DeletesStamped key s op) (hstep : s.epochStep op = some s') :
    Remembers key S (ops ++ [op]) s' := by
  cases op with
  | postUpdate k =>
    cases hstep
    exact h.postUpdate hS k
  | delete cfg k reason =>
    cases hstep
    exact h.delete hop.1 hop.2
  | recordExpiry k replMvcc nowMs =>
    have hk : k ≠ key := hop.1
    obtain ⟨-, hother, hcases⟩ := recordExpiryBlocking_cases hstep
    refine h.frame rfl (hother key (Ne.symm hk)) fun a ha => ?_
    rcases hcases with ⟨-, -, harmed⟩ | ⟨b, -, harmed, -⟩
    · rw [harmed]
    · rw [harmed]
      refine mem_eraseP_of_neg ?_
      simp [ha, Ne.symm hk]
  | recordEntry originIdx mvcc expiredFlag nowMs =>
    obtain ⟨⟨m, s2⟩, hentry, rfl⟩ := map_eq_some_iff.mp hstep
    cases expiredFlag with
    | true =>
      rw [recordEntry_expired] at hentry
      cases hentry
      exact h.frame rfl rfl fun a _ => by rw [(entryStamp_frame s.stamper mvcc nowMs).1]
    | false =>
      have hfree : ∀ a ∈ s.stamper.armed, a.key ≠ key := hop.1.resolve_left (by simp)
      obtain ⟨-, harmed, -, hslots⟩ := recordEntry_cases hentry
      refine h.frame rfl ?_ fun a ha => ?_
      · rw [hslots]
        rcases lastStamp_cases _ s.stamper.armed key (s.table.getMvcc key) with
          ⟨-, hsame⟩ | ⟨pre, a, post, heq, ha, -⟩
        · exact hsame
        · exact absurd ha (hfree a (heq ▸ mem_append_cons_self))
      · rw [harmed]
        exact ⟨fun hmem => absurd hmem not_mem_nil, fun hmem => absurd ha (hfree a hmem)⟩

/-- **A local write outranks what it overwrites**, whatever the wall clock reads in range: if the
key had the stamp `S` when the epoch started and every delete of it found a stamp in the slot, a
locally minted entry commits a greater one. -/
theorem local_entry_outranks {s0 : DbSlice K V} (hquiet : s0.Quiet)
    (hslot : s0.table.getMvcc key = some S) (hpos : 0 < S.mvcc) (hmax : S.mvcc < kStampMask)
    (hops : Lib.RunAll epochStep (fun s op => LocalMutation key s op ∧
      DeletesStamped key s op) s0 ops)
    (hmut : ∃ op ∈ ops, op.mutation key ≠ none) (hrun : Lib.run epochStep s0 ops = some s)
    {originIdx : ℕ} {nowMs m : UInt64} (hclock : s.stamper.ClockInRange nowMs)
    (hentry : s.recordEntry originIdx 0 false nowMs = some (m, s')) :
    ∃ stamp, s'.table.getMvcc key = some stamp ∧ S.mvcc < stamp.mvcc := by
  have hS : S.mvcc ≠ 0 := fun h => absurd (h ▸ hpos) (by decide)
  have hstart : Remembers key S [] s0 := by
    refine .inl ⟨forall_mem_nil _, hslot, ?_⟩
    rw [hquiet.unarmed]
    exact forall_mem_nil _
  have hrem :=
    Lib.inv_of_history (fun _ _ _ _ _ h hop hstep => h.step hS hop hstep) hstart hops hrun
  obtain ⟨⟨a, ha, hkey, hprev⟩, -⟩ := hrem.resolve_left fun h => hmut.elim fun op hop =>
    hop.2 (h.1 op hop.1)
  obtain ⟨hm, -, -, hslots⟩ := recordEntry_cases hentry
  -- the stamp is the maximum of the hop stamp and the floor, and the arm's floor is above `S`
  have hmax' : m.toNat = max (s.stamper.mintHop nowMs).hopStamp.toNat
      (s.stamper.mintHop nowMs).localMintFloor.toNat := by
    rw [hm, ← UInt64.toNat_max]
    rfl
  have hfloor := armFloor_le_localMintFloor (s.stamper.mintHop nowMs) (by simpa using ha)
  rw [UInt64.lt_iff_toNat_lt, kStampMask_toNat] at hmax
  rw [armFloor, hprev, if_neg hS, UInt64.toNat_min, toNat_add_one (by omega),
    kStampMask_toNat] at hfloor
  have hhop := mintHop_lt hclock
  have hlocal := localMintFloor_lt (s.stamper.mintHop nowMs)
  rcases lastStamp_cases (committedStamp (decide ((0 : UInt64) ≠ 0))
      (entryStamp s.stamper 0 nowMs).1 m originIdx) s.stamper.armed key (s.table.getMvcc key) with
    ⟨hfree, -⟩ | ⟨pre, b, post, -, -, -, hcommit⟩
  · exact absurd hkey (hfree a ha)
  · refine ⟨_, (hslots key).trans hcommit, ?_⟩
    have hmlt : m.toNat < 2 ^ 63 := by omega
    have hmvcc :
      (committedStamp false (entryStamp s.stamper 0 nowMs).1 m originIdx b).mvcc = m := by
      rw [committedStamp_local originIdx b hmlt, withTombstone]
      split
      · rw [asTombstone_mvcc, mk_mvcc_of_lt hmlt]
      · rw [masked_mvcc, mk_mvcc_of_lt hmlt]
    change S.mvcc.toNat <
      (committedStamp false (entryStamp s.stamper 0 nowMs).1 m originIdx b).mvcc.toNat
    rw [hmvcc]
    omega

/-- A live key 0 whose stamp is a peer's, ahead of this node's clock. -/
def peerAhead : DbSlice ℕ ℕ :=
  ⟨(DbTable.empty.setMvcc 0 ⟨0x200000, 3⟩).setPrime 0 1, MvccStamper.init fun _ => 7⟩

/-- What a local entry commits to the key after the operations of an epoch. -/
def committedAfter (ops : List (EpochOp ℕ)) (nowMs : UInt64) : Option (Option MvccStamp) :=
  (Lib.run epochStep peerAhead ops).bind fun s =>
    (s.recordEntry 0 0 false nowMs).map fun r => r.2.table.getMvcc 0

/-- An epoch that deletes the key and creates it again. -/
def deleteCreate : List (EpochOp ℕ) := [.delete ⟨true, 8⟩ 0 .explicit, .postUpdate 0]

theorem local_entry_outranks_deleteCreate :
    ∃ stamp, committedAfter deleteCreate 1 = some (some stamp) ∧ 0x200000 < stamp.mvcc := by
  have hafter : committedAfter deleteCreate 1 = some (some ⟨0x200001, 7⟩) := by decide +kernel
  have hclock : ∀ s ∈ Lib.run epochStep peerAhead deleteCreate, s.stamper.ClockInRange 1 := by
    decide +kernel
  have hquiet : peerAhead.Quiet := by
    refine ⟨rfl, fun k => ?_⟩
    rw [peerAhead, DbTable.getMvcc_setPrime, (DbTable.setMvcc_slotWrite _ _ _).getMvcc]
    split
    · decide
    · exact fun h => by cases h
  have hslot0 : peerAhead.table.getMvcc 0 = some ⟨0x200000, 3⟩ := by decide +kernel
  obtain ⟨s, hrun, hrest⟩ := bind_eq_some_iff.mp hafter
  obtain ⟨⟨m, s'⟩, hentry, hslot⟩ := map_eq_some_iff.mp hrest
  obtain ⟨stamp, hstamp, hlt⟩ := local_entry_outranks hquiet hslot0 (by decide) (by decide)
    (by decide +kernel) ⟨_, mem_cons_self, by decide⟩ hrun (hclock s hrun) hentry
  exact ⟨stamp, hafter.trans (congrArg some (hslot.symm.trans hstamp)), hlt⟩

/-- **A stamp forgotten.**  Deleted, created and deleted again in one epoch, the key gets a
tombstone below the stamp it had: the second delete drops the arms that remember it and finds an
empty slot. A reading that has outgrown the stamp's millisecond part wraps below it too. -/
theorem stamp_forgotten :
    Lib.RunAll epochStep (LocalMutation 0) peerAhead
      (deleteCreate ++ [.delete ⟨true, 8⟩ 0 .explicit]) ∧
      committedAfter (deleteCreate ++ [.delete ⟨true, 8⟩ 0 .explicit]) 1 =
        some (some ⟨kTombstoneBit ||| 0x100000, 7⟩) ∧
      (⟨kTombstoneBit ||| 0x100000, 7⟩ : MvccStamp).mvcc < (peerAhead.stampOf 0).mvcc ∧
      committedAfter [.postUpdate 0] 0x80000000000 = some (some ⟨kTombstoneBit, 7⟩) := by
  decide +kernel

end DbSlice

end Drakeydb.Mvcc
